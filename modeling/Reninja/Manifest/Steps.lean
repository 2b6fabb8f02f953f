import Reninja.Manifest.Parse

/-!
# What the parser does to the state

Every call of the parser changes the state by a sequence of the steps below, whatever it reads
and however it ends. A property that each step keeps is therefore kept by the whole parse.
-/

namespace Reninja

open Program

def State.IsLast (e : EdgeId) (st : State) : Prop := e + 1 = st.world.edgeCount

/-- One change that the parser makes. The graph changes only around the last edge. -/
inductive ParseStep : State → State → Prop
  | newScope (st : State) (parent : ScopeId) : ParseStep st (st.newScope parent)
  | addBinding (st : State) (s : ScopeId) (v value : GoString) :
      ParseStep st (st.addBinding s v value)
  | addRule (st : State) (s : ScopeId) (rule : Rule) : ParseStep st (st.addRule s rule)
  | addPool (st : State) (name : GoString) (depth : Nat) : ParseStep st (st.addPool name depth)
  | addDefault {st st' : State} (n : Path) (h : st.addDefault n = .ok st') : ParseStep st st'
  | addEdge (st : State) (rule : Rule) (scope : ScopeId) : ParseStep st (st.addEdge rule scope)
  | removeLastEdge {st : State} {e : EdgeId} (he : st.IsLast e)
      (hi : (st.world.edges e).inputs = []) (ho : (st.world.edges e).outputs = []) :
      ParseStep st st.removeLastEdge
  | setPool {st : State} {e : EdgeId} (he : st.IsLast e) (i : PoolId) :
      ParseStep st (st.setEdge e fun x => { x with pool := i })
  | setImplicitOuts {st : State} {e : EdgeId} (he : st.IsLast e) (n : Nat) :
      ParseStep st (st.setEdge e fun x => { x with implicitOuts := n })
  | addOut {st st' : State} {e : EdgeId} (he : st.IsLast e) (n : Path)
      (h : st.addOut n e = .ok st') : ParseStep st st'
  | addExplicitIn {st : State} {e : EdgeId} (he : st.IsLast e) (n : Path) :
      ParseStep st (st.addExplicitIn n e)
  | addImplicitIn {st : State} {e : EdgeId} (he : st.IsLast e) (n : Path) :
      ParseStep st (st.addImplicitIn n e)
  | addOrderOnlyIn {st : State} {e : EdgeId} (he : st.IsLast e) (n : Path) :
      ParseStep st (st.addOrderOnlyIn n e)
  | addValidation {st : State} {e : EdgeId} (he : st.IsLast e) (n : Path) :
      ParseStep st (st.addValidation n e)
  | removeInput {st : State} {e : EdgeId} (he : st.IsLast e) (n : Path) :
      ParseStep st (st.removeInput e n)
  | setDyndep {st : State} {e : EdgeId} (he : st.IsLast e) (n : Path) :
      ParseStep st (((st.touch n).setNode n fun m => { m with dyndepPending := true }).setEdge e
        fun x => { x with dyndep := some n })

def ParseSteps : State → State → Prop := Relation.ReflTransGen ParseStep

instance : Std.Refl ParseSteps := ⟨fun _ => .refl⟩

instance : IsTrans State ParseSteps := ⟨fun _ _ _ => Relation.ReflTransGen.trans⟩

lemma ParseSteps.within {I : State → Prop} {st st' : State} (h : ParseSteps st st')
    (hI : ∀ st st', ParseStep st st' → I st → I st') : I st → I st' := by
  intro hs
  induction h with
  | refl => exact hs
  | tail _ step ih => exact hI _ _ step ih

/-! ### What stays -/

namespace State

/-- The first `n` scopes, with what they bind and declare, are the same. -/
structure KeepsScopes (n : Nat) (st st' : State) : Prop where
  scopes : ∀ t < n, st'.world.scopes t = st.world.scopes t
  vars : ∀ t < n, st'.vars t = st.vars t
  parents : ∀ t < n, st'.parents t = st.parents t
  rules : ∀ t < n, st'.rules t = st.rules t
  count : st.scopeCount ≤ st'.scopeCount

/-- All scopes are the same. -/
structure SameScopes (st st' : State) : Prop where
  scopes : st'.world.scopes = st.world.scopes
  vars : st'.vars = st.vars
  parents : st'.parents = st.parents
  rules : st'.rules = st.rules
  count : st'.scopeCount = st.scopeCount

def KeepsEdges (m : Nat) (st st' : State) : Prop :=
  m ≤ st.world.edgeCount → m ≤ st'.world.edgeCount ∧
    ∀ e < m, st'.world.edges e = st.world.edges e ∧ st'.edgeRule e = st.edgeRule e

variable {st st₁ st₂ : State} {n m : Nat}

@[refl] lemma KeepsScopes.refl (n : Nat) (st : State) : KeepsScopes n st st where
  scopes _ _ := rfl
  vars _ _ := rfl
  parents _ _ := rfl
  rules _ _ := rfl
  count := Nat.le_refl _

lemma KeepsScopes.trans (h₁ : KeepsScopes n st st₁) (h₂ : KeepsScopes n st₁ st₂) :
    KeepsScopes n st st₂ where
  scopes t ht := (h₂.scopes t ht).trans (h₁.scopes t ht)
  vars t ht := (h₂.vars t ht).trans (h₁.vars t ht)
  parents t ht := (h₂.parents t ht).trans (h₁.parents t ht)
  rules t ht := (h₂.rules t ht).trans (h₁.rules t ht)
  count := Nat.le_trans h₁.count h₂.count

lemma SameScopes.keepsScopes (h : SameScopes st st₁) (n : Nat) : KeepsScopes n st st₁ where
  scopes _ _ := by rw [h.scopes]
  vars _ _ := by rw [h.vars]
  parents _ _ := by rw [h.parents]
  rules _ _ := by rw [h.rules]
  count := Nat.le_of_eq h.count.symm

@[refl] lemma KeepsEdges.refl (m : Nat) (st : State) : KeepsEdges m st st :=
  fun h => ⟨h, fun _ _ => ⟨rfl, rfl⟩⟩

lemma KeepsEdges.trans (h₁ : KeepsEdges m st st₁) (h₂ : KeepsEdges m st₁ st₂) :
    KeepsEdges m st st₂ := by
  intro hm
  obtain ⟨hm₁, same₁⟩ := h₁ hm
  obtain ⟨hm₂, same₂⟩ := h₂ hm₁
  refine ⟨hm₂, fun e he => ?_⟩
  rw [(same₂ e he).1, (same₂ e he).2]
  exact same₁ e he

end State

namespace Parser

def EdgeScoped (s : ScopeId) (st : State) (e : EdgeId) : Prop :=
  s < st.scopeCount → (st.world.edges e).scope < st.scopeCount ∧
    (st.world.edges e).parents = st.parents (st.world.edges e).scope

/-- What a statement of a file in the scope `s` does to the state. It binds variables in that
scope or in the one it made last. -/
inductive Change (s : ScopeId) : State → State → Prop
  | newScope (st : State) : Change s st (st.newScope s)
  | addBinding (st : State) {t : ScopeId} (ht : s < st.scopeCount → s ≤ t) (v value : GoString) :
      Change s st (st.addBinding t v value)
  | addRule (st : State) {rule : Rule}
      (hr : ∀ v, (rule.bindings v).isSome = true → isReservedBinding v = true) :
      Change s st (st.addRule s rule)
  | addPool (st : State) (name : GoString) (depth : Nat) : Change s st (st.addPool name depth)
  | addDefault {st st' : State} (n : Path) (h : st.addDefault n = .ok st') : Change s st st'
  | build {st st' : State} (steps : ParseSteps st st') (scopes : st.SameScopes st')
      (edges : ∀ m, st.KeepsEdges m st')
      (new : ∀ e, st.world.edgeCount ≤ e → e < st'.world.edgeCount → EdgeScoped s st' e) :
      Change s st st'

lemma Change.steps {s : ScopeId} {st st' : State} (h : Change s st st') : ParseSteps st st' := by
  cases h with
  | newScope => exact .single (.newScope _ _)
  | addBinding => exact .single (.addBinding _ _ _ _)
  | addRule => exact .single (.addRule _ _ _)
  | addPool => exact .single (.addPool _ _ _)
  | addDefault n h => exact .single (.addDefault n h)
  | build steps => exact steps

/-- A relation between parsers that does not look at the lexer. -/
class IgnoresLexer (R : Parser → Parser → Prop) : Prop extends IsTrans Parser R where
  lexer : ∀ (p : Parser) (l : Lexer), R p { p with lexer := l }

/-- A relation that holds between the parsers before and after every statement: what a statement
changes is in the relation, and so is the way into the scope of another file and back. -/
class Closed (R : Parser → Parser → Prop) : Prop extends IgnoresLexer R where
  change : ∀ (p : Parser) (st : State), Change p.env p.state st → R p { p with state := st }
  enter : ∀ p : Parser, R p { p with state := p.state.newScope p.env, env := p.state.scopeCount }
  leave : ∀ p q : Parser, R p q → R p { q with env := p.env }

instance {R : Parser → Parser → Prop} [IgnoresLexer R] : Std.Refl R :=
  ⟨fun p => IgnoresLexer.lexer p p.lexer⟩

/-- A relation between the states of two parsers. -/
def Via (r : State → State → Prop) (p p' : Parser) : Prop := r p.state p'.state

instance {r : State → State → Prop} [Std.Refl r] [IsTrans State r] : IgnoresLexer (Via r) where
  trans _ _ _ h₁ h₂ := IsTrans.trans (r := r) _ _ _ h₁ h₂
  lexer p _ := Std.Refl.refl (r := r) p.state

def OnlyLexer (p q : Parser) : Prop := q.state = p.state ∧ q.env = p.env

instance : IgnoresLexer OnlyLexer where
  trans _ _ _ h₁ h₂ := ⟨h₂.1.trans h₁.1, h₂.2.trans h₁.2⟩
  lexer _ _ := ⟨rfl, rfl⟩

instance : Closed (Via ParseSteps) where
  change _ _ h := h.steps
  enter _ := .single (.newScope _ _)
  leave _ _ h := h

/-! ### Reading

The functions that only read leave all but the lexer as it is. -/

section Reading

variable {R : Parser → Parser → Prop} [IgnoresLexer R] {p : Parser}

lemma checked_moves {α : Type} (x : Except Failure α) : Moves R p (checked x) := by
  cases x with
  | ok a => exact .pure a
  | error f => exact .throw f

lemma fail_moves {α : Type} (msg : GoString) : Moves R p (fail msg : P α) :=
  Moves.get_bind (.bind (checked_moves _) fun _ _ _ => .throw _)

lemma orFail_moves {α : Type} (x : Except GoString α) : Moves R p (orFail x) := by
  cases x with
  | ok a => exact .pure a
  | error e => exact .throw _

lemma evaluate_moves (s : ScopeId) (es : EvalString) : Moves R p (evaluate s es) :=
  Moves.get_bind (.pure _)

lemma edgeBinding_moves (e : EdgeId) (b : Bool) (v : GoString) :
    Moves R p (edgeBinding e b v) :=
  Moves.get_bind (checked_moves _)

lemma setLexer_moves (f : Parser → Lexer) :
    Moves R p (modify fun p => { p with lexer := f p } : P Unit) :=
  Moves.modify (IgnoresLexer.lexer p _)

lemma lexing_moves {α : Type} (f : Lexer → Except Failure (α × Lexer)) : Moves R p (lexing f) := by
  apply Moves.get_bind
  refine .bind (checked_moves _) fun r q _ => ?_
  exact .bind (setLexer_moves _) fun _ _ _ => .pure _

lemma peekToken_moves (t : Lexer.Token) : Moves R p (peekToken t) := lexing_moves _

lemma expectToken_moves (t : Lexer.Token) : Moves R p (expectToken t) := by
  refine .bind (lexing_moves _) fun token q _ => ?_
  exact .ite (fun _ => .pure _) fun _ => fail_moves _

lemma readIdent_moves (msg : GoString) : Moves R p (readIdent msg) := by
  refine .bind (lexing_moves _) fun name q _ => ?_
  cases name with
  | some name => exact .pure name
  | none => exact fail_moves msg

lemma readPath_moves : Moves R p readPath :=
  Moves.bind (lexing_moves _) fun _ _ _ => orFail_moves _

lemma readVarValue_moves : Moves R p readVarValue :=
  Moves.bind (lexing_moves _) fun _ _ _ => orFail_moves _

lemma pathsLoop_moves (fuel : Nat) : Moves R p (pathsLoop fuel) := by
  induction fuel generalizing p with
  | zero => exact .throw _
  | succ fuel ih =>
    refine .bind readPath_moves fun path q _ => ?_
    refine .ite (fun _ => .pure _) fun _ => ?_
    exact .bind ih fun _ _ _ => .pure _

lemma readPaths_moves : Moves R p readPaths := Moves.get_bind (pathsLoop_moves _)

lemma readPathsAfter_moves (t : Lexer.Token) : Moves R p (readPathsAfter t) := by
  refine .bind (peekToken_moves t) fun b q _ => ?_
  exact .ite (fun _ => readPaths_moves) fun _ => .pure _

lemma parseLet_moves : Moves R p parseLet := by
  refine .bind (readIdent_moves _) fun key q _ => ?_
  refine .bind (expectToken_moves _) fun _ q _ => ?_
  exact .bind readVarValue_moves fun _ _ _ => .pure _

lemma evaluatePath_moves (env : Env) (s : ScopeId) (es : EvalString) :
    Moves R p (evaluatePath env s es) := by
  refine .bind (evaluate_moves s es) fun path q _ => ?_
  cases path with
  | nil => exact fail_moves _
  | cons c cs => exact .pure _

lemma foldLets_moves {β : Type} {step : β → GoString → EvalString → P β}
    (h : ∀ b key value p, Moves R p (step b key value)) (b : β) :
    Moves R p (foldLets step b) := by
  apply Moves.get_bind
  generalize p.lexer.rest.length + 1 = fuel
  induction fuel generalizing p b with
  | zero => exact .throw _
  | succ fuel ih =>
    refine .bind (peekToken_moves _) fun indented q _ => ?_
    refine .ite (fun _ => ?_) fun _ => .pure b
    refine .bind parseLet_moves fun kv q _ => ?_
    exact .bind (h b kv.1 kv.2 q) fun _ _ _ => ih _

lemma foldLets_keeps {β : Type} {step : β → GoString → EvalString → P β} {I : β → Prop}
    (h : ∀ b key value p b' p', step b key value p = .ok b' p' → I b → I b') {b b' : β}
    {p q : Parser} (hp : foldLets step b p = .ok b' q) : I b → I b' := by
  have loop : ∀ fuel b p, letsLoop step fuel b p = .ok b' q → I b → I b' := by
    intro fuel
    induction fuel with
    | zero =>
      intro b p hp
      exact absurd hp throw_ok
    | succ fuel ih =>
      intro b p hp hb
      obtain ⟨indented, p₁, -, hp⟩ := bind_ok.mp hp
      cases indented with
      | false =>
        obtain ⟨rfl, -⟩ := pure_ok.mp hp
        exact hb
      | true =>
        obtain ⟨kv, p₂, -, hp⟩ := bind_ok.mp hp
        obtain ⟨b₁, p₃, hstep, hp⟩ := bind_ok.mp hp
        exact ih b₁ p₃ hp (h _ _ _ _ _ _ hstep hb)
  exact loop _ b p hp

end Reading

/-! ### Statements -/

section Statements

variable {R : Parser → Parser → Prop} {p : Parser}

/-- Steps during which a fact about the state and the scope stays true, if it was true before. -/
def During (I : State → ScopeId → Prop) (R : Parser → Parser → Prop) (p q : Parser) : Prop :=
  I p.state p.env → I q.state q.env ∧ R p q

instance {I : State → ScopeId → Prop} [IgnoresLexer R] : IgnoresLexer (During I R) where
  trans p₁ p₂ p₃ h₁ h₂ hI := by
    obtain ⟨hI₂, r₁⟩ := h₁ hI
    obtain ⟨hI₃, r₂⟩ := h₂ hI₂
    exact ⟨hI₃, IsTrans.trans _ _ _ r₁ r₂⟩
  lexer p l hI := ⟨hI, IgnoresLexer.lexer p l⟩

/-- A fact that holds at first, and one that follows from it. -/
lemma During.weaken {α : Type} {I J : State → ScopeId → Prop} {m : P α}
    (h : Moves (During I R) p m) (hI : I p.state p.env) (hJ : ∀ st s, I st s → J st s) :
    Moves (During J R) p m :=
  fun _ => (h hI).imp (hJ _ _) id

lemma During.moves {α : Type} {I : State → ScopeId → Prop} {m : P α}
    (h : Moves (During I R) p m) (hI : I p.state p.env) : Moves R p m := (h hI).2

section

variable [IgnoresLexer R]

lemma poolVariable_moves (d : Int) (key : GoString) (value : EvalString) :
    Moves R p (poolVariable d key value) := by
  refine .ite (fun _ => ?_) fun _ => fail_moves _
  apply Moves.get_bind
  refine .bind (evaluate_moves _ _) fun depth q _ => ?_
  exact .ite (fun _ => fail_moves _) fun _ => .pure _

lemma ruleVariable_moves (rule : Rule) (key : GoString) (value : EvalString) :
    Moves R p (ruleVariable rule key value) :=
  Moves.ite (fun _ => .pure _) fun _ => fail_moves _

lemma readInputs_moves (outs implicitOuts : List EvalString) (rule : Rule) :
    Moves R p (readInputs outs implicitOuts rule) := by
  refine .bind readPaths_moves fun _ q _ => ?_
  refine .bind (readPathsAfter_moves _) fun _ q _ => ?_
  refine .bind (readPathsAfter_moves _) fun _ q _ => ?_
  refine .bind (readPathsAfter_moves _) fun _ q _ => ?_
  exact .bind (expectToken_moves _) fun _ _ _ => .pure _

lemma readBuildLine_moves : Moves R p readBuildLine := by
  refine .bind readPaths_moves fun outs q _ => ?_
  refine .bind (readPathsAfter_moves _) fun implicitOuts q _ => ?_
  refine .ite (fun _ => fail_moves _) fun _ => ?_
  refine .bind (expectToken_moves _) fun _ q _ => ?_
  refine .bind (readIdent_moves _) fun name q _ => ?_
  apply Moves.get_bind
  cases q.state.lookupRule q.env name with
  | none => exact fail_moves _
  | some rule => exact readInputs_moves outs implicitOuts rule

end

variable [Closed R]

lemma modifyState_moves {f : State → State} (h : Change p.env p.state (f p.state)) :
    Moves R p (modifyState f) := .modify (Closed.change p _ h)

lemma parsePool_moves : Moves R p parsePool := by
  refine .bind (readIdent_moves _) fun name q _ => ?_
  refine .bind (expectToken_moves _) fun _ q _ => ?_
  apply Moves.get_bind
  refine .ite (fun _ => fail_moves _) fun _ => ?_
  refine .bind (foldLets_moves (fun d key value _ => poolVariable_moves d key value) _)
    fun depth q _ => ?_
  refine .ite (fun _ => fail_moves _) fun _ => ?_
  exact modifyState_moves (.addPool _ _ _)

lemma ruleVariable_reserved {rule rule' : Rule} {key : GoString} {value : EvalString} {q : Parser}
    (h : ruleVariable rule key value p = .ok rule' q)
    (hr : ∀ v, (rule.bindings v).isSome = true → isReservedBinding v = true) :
    ∀ v, (rule'.bindings v).isSome = true → isReservedBinding v = true := by
  unfold ruleVariable at h
  split at h
  next hkey =>
    obtain ⟨rfl, -⟩ := pure_ok.mp h
    intro v hv
    by_cases hvk : v = key
    · rw [hvk]
      exact hkey
    · refine hr v ?_
      rw [← Function.update_of_ne hvk (some value) rule.bindings]
      exact hv
  next =>
    obtain ⟨_, _, -, hfail⟩ := bind_ok.mp h
    obtain ⟨_, _, -, hthrow⟩ := bind_ok.mp hfail
    exact absurd hthrow throw_ok

lemma addRule_moves {rule : Rule}
    (hr : ∀ v, (rule.bindings v).isSome = true → isReservedBinding v = true) :
    Moves R p (addRule rule) := by
  apply Moves.get_bind
  refine .ite (fun _ => .throw _) fun _ => ?_
  exact modifyState_moves (.addRule _ hr)

lemma parseRule_moves : Moves R p parseRule := by
  refine .bind (readIdent_moves _) fun name q _ => ?_
  refine .bind (expectToken_moves _) fun _ q _ => ?_
  apply Moves.get_bind
  refine .ite (fun _ => fail_moves _) fun _ => ?_
  refine .bind (foldLets_moves (fun rule key value _ => ruleVariable_moves rule key value) _)
    fun rule q' hrule => ?_
  refine .ite (fun _ => fail_moves _) fun _ => ?_
  refine .ite (fun _ => fail_moves _) fun _ => ?_
  exact addRule_moves (foldLets_keeps (fun _ _ _ _ _ _ => ruleVariable_reserved) hrule
    fun _ hv => absurd hv Bool.false_ne_true)

/-- A scope that exists and that the current one can bind variables in. -/
def Inner (t : ScopeId) (st : State) (s : ScopeId) : Prop :=
  t < st.scopeCount ∧ (s < st.scopeCount → s ≤ t)

lemma addBinding_scopeCount (st : State) (s : ScopeId) (v value : GoString) :
    (st.addBinding s v value).scopeCount = st.scopeCount := by
  unfold State.addBinding
  split <;> rfl

lemma bindVariable_moves (t : ScopeId) (u : Unit) (key : GoString) (value : EvalString) :
    Moves (During (Inner t) R) p (bindVariable t u key value) := by
  apply Moves.get_bind
  refine .bind (evaluate_moves _ _) fun value q _ => ?_
  refine .modify fun ht => ⟨?_, Closed.change _ _ (.addBinding _ ht.2 _ _)⟩
  rw [Inner, addBinding_scopeCount]
  exact ht

lemma edgeVariables_moves (t : ScopeId) : Moves (During (Inner t) R) p (do
    let (key, value) ← parseLet
    bindVariable t () key value
    foldLets (bindVariable t) ()
    pure t) := by
  refine .bind parseLet_moves fun kv q₂ _ => ?_
  refine .bind (bindVariable_moves _ _ _ _) fun _ q₃ _ => ?_
  exact .bind (foldLets_moves (fun u key value _ => bindVariable_moves _ u key value) _)
    fun _ _ _ => .pure _

lemma newScope_inner (st : State) (s : ScopeId) : Inner st.scopeCount (st.newScope s) s :=
  ⟨Nat.lt_succ_self _, Nat.le_of_lt_succ⟩

lemma readEdgeScope_moves : Moves R p readEdgeScope := by
  apply Moves.get_bind
  refine .bind (peekToken_moves _) fun indented q hq => ?_
  obtain ⟨hstate, henv⟩ : OnlyLexer p q := (peekToken_moves _).of_ok hq
  rw [← hstate, ← henv]
  refine .ite (fun _ => ?_) fun _ => .pure _
  refine .bind (modifyState_moves (.newScope _)) fun _ q₁ h₁ => ?_
  obtain rfl := modify_ok.mp h₁
  exact During.moves (edgeVariables_moves _) (newScope_inner _ _)

end Statements

lemma readEdgeScope_exists {t : ScopeId} {p q : Parser} (h : readEdgeScope p = .ok t q) :
    q.env < q.state.scopeCount → t < q.state.scopeCount := by
  obtain ⟨p, _, hp, h⟩ := bind_ok.mp h
  obtain ⟨rfl, rfl⟩ := get_ok.mp hp
  obtain ⟨indented, q₁, h₁, h⟩ := bind_ok.mp h
  obtain ⟨hstate, henv⟩ : OnlyLexer p q₁ := (peekToken_moves _).of_ok h₁
  cases indented with
  | false =>
    obtain ⟨rfl, rfl⟩ := pure_ok.mp h
    rw [henv]
    exact id
  | true =>
    intro _
    obtain ⟨_, q₂, h₂, h⟩ := bind_ok.mp h
    obtain rfl := modify_ok.mp h₂
    have start : Inner p.state.scopeCount (q₁.state.newScope p.env) q₁.env := by
      rw [hstate, henv]
      exact newScope_inner _ _
    have inner := (edgeVariables_moves (R := Via ParseSteps) p.state.scopeCount).of_ok h start
    obtain ⟨_, _, -, h⟩ := bind_ok.mp h
    obtain ⟨_, _, -, h⟩ := bind_ok.mp h
    obtain ⟨_, _, -, h⟩ := bind_ok.mp h
    obtain ⟨rfl, rfl⟩ := pure_ok.mp h
    exact inner.1.1

/-! ### Edges -/

/-- What a build statement in the scope `s` keeps of the state in which its edge is added. -/
structure Kept (s : ScopeId) (st₀ st : State) : Prop where
  scopes : st₀.SameScopes st
  edges : ∀ m, st₀.KeepsEdges m st
  new : ∀ e, st₀.world.edgeCount ≤ e → e < st.world.edgeCount → EdgeScoped s st e

/-- The edge `e` has been added to `st₀`, with the scope `t`, and nothing else has changed but
nodes and pools. -/
structure Building (st₀ : State) (e : EdgeId) (t : ScopeId) (st : State) : Prop where
  last : st.IsLast e
  scopes : st₀.SameScopes st
  edges : ∀ i < e, st.world.edges i = st₀.world.edges i ∧ st.edgeRule i = st₀.edgeRule i
  top : (st.world.edges e).scope = t ∧ (st.world.edges e).parents = st₀.parents t

section Edges

variable {p : Parser} {st₀ st st' : State} {e : EdgeId} {t : ScopeId} {g : Edge → Edge} {n : Path}

lemma Building.kept {s : ScopeId} (h : Building st₀ st₀.world.edgeCount t st)
    (ht : s < st₀.scopeCount → t < st₀.scopeCount) : Kept s st₀ st := by
  have count : st.world.edgeCount = st₀.world.edgeCount + 1 := h.last.symm
  refine ⟨h.scopes, fun m hm => ⟨?_, fun i hi => h.edges i (Nat.lt_of_lt_of_le hi hm)⟩,
    fun e he he' => ?_⟩
  · omega
  · obtain rfl : e = st₀.world.edgeCount := by omega
    intro hs
    rw [h.top.1, h.top.2, h.scopes.parents]
    rw [h.scopes.count] at hs ⊢
    exact ⟨ht hs, rfl⟩

lemma Building.setEdge (h : Building st₀ e t st)
    (hg : ∀ x, (g x).scope = x.scope ∧ (g x).parents = x.parents) :
    Building st₀ e t (st.setEdge e g) where
  last := h.last
  scopes := ⟨h.scopes.scopes, h.scopes.vars, h.scopes.parents, h.scopes.rules, h.scopes.count⟩
  edges i hi := by
    simp only [State.setEdge, World.setEdge_edges_ne _ (Nat.ne_of_lt hi)]
    exact h.edges i hi
  top := by
    simp only [State.setEdge, World.setEdge_edges_self, hg]
    exact h.top

lemma Building.setNode (h : Building st₀ e t st) (f : Node → Node) :
    Building st₀ e t (st.setNode n f) where
  last := h.last
  scopes := ⟨h.scopes.scopes, h.scopes.vars, h.scopes.parents, h.scopes.rules, h.scopes.count⟩
  edges := h.edges
  top := h.top

lemma Building.touch (h : Building st₀ e t st) : Building st₀ e t (st.touch n) := by
  unfold State.touch
  split
  · exact h
  · exact ⟨h.last, ⟨h.scopes.scopes, h.scopes.vars, h.scopes.parents, h.scopes.rules,
      h.scopes.count⟩, h.edges, h.top⟩

lemma addIn_edgeCount (add : Path → Edge → Edge) (st : State) (n : Path) :
    (st.addIn add n e).world.edgeCount = st.world.edgeCount := by
  simp [State.addIn, State.setNode, State.setEdge, World.setNode, World.setEdge]

lemma Building.addTo (h : Building st₀ e t st)
    (hg : ∀ x, (g x).scope = x.scope ∧ (g x).parents = x.parents) (f : Node → Node) :
    Building st₀ e t (((st.touch n).setEdge e g).setNode n f) :=
  (h.touch.setEdge hg).setNode f

lemma Building.removeInput (h : Building st₀ e t st) : Building st₀ e t (st.removeInput e n) := by
  have same : Building st₀ e t (st.setEdge e fun x => { x with
      explicitInputs := x.explicitInputs.filter (· ≠ n)
      implicitInputs := x.implicitInputs.filter (· ≠ n)
      orderOnlyInputs := x.orderOnlyInputs.filter (· ≠ n) }) :=
    h.setEdge fun _ => ⟨rfl, rfl⟩
  exact ⟨same.last, ⟨same.scopes.scopes, same.scopes.vars, same.scopes.parents,
    same.scopes.rules, same.scopes.count⟩, same.edges, same.top⟩

def InScope (p q : Parser) : Prop := q.env = p.env ∧ ParseSteps p.state q.state

instance : IgnoresLexer InScope where
  trans _ _ _ h₁ h₂ := ⟨h₂.1.trans h₁.1, h₁.2.trans h₂.2⟩
  lexer _ _ := ⟨rfl, .refl⟩

abbrev While (I : State → Prop) : Parser → Parser → Prop := During (fun st _ => I st) InScope

lemma While.step {I : State → Prop} {f : State → State} (hI : I p.state → I (f p.state))
    (h : I p.state → ParseStep p.state (f p.state)) : Moves (While I) p (modifyState f) :=
  Moves.modify fun hp => ⟨hI hp, rfl, .single (h hp)⟩

def NoInputs (st₀ : State) (e : EdgeId) (t : ScopeId) (st : State) : Prop :=
  Building st₀ e t st ∧ (st.world.edges e).inputs = []

lemma setEdgePool_moves : Moves (While (NoInputs st₀ e t)) p (setEdgePool e) := by
  refine .bind (edgeBinding_moves _ _ _) fun name q _ => ?_
  cases name with
  | nil => exact .pure _
  | cons c cs =>
    apply Moves.get_bind
    cases q.state.poolIds (c :: cs) with
    | none => exact fail_moves _
    | some i =>
      refine While.step (fun h => ⟨h.1.setEdge fun _ => ⟨rfl, rfl⟩, ?_⟩)
        fun h => .setPool h.1.last i
      rw [State.setEdge, World.setEdge_edges_self]
      exact h.2

lemma addOut_noInputs (h : st.addOut n e = .ok st') :
    NoInputs st₀ e t st → NoInputs st₀ e t st' := by
  rintro ⟨hb, hi⟩
  unfold State.addOut at h
  split at h
  · exact absurd h (by simp)
  · obtain rfl := Except.ok.inj h
    refine ⟨hb.addTo (by simp) _, ?_⟩
    simp only [State.setNode, State.setEdge, World.setNode_edges, World.setEdge_edges_self,
      State.touch_world]
    exact hi

lemma addOut_moves (env : Env) (s : ScopeId) (es : EvalString) :
    Moves (While (NoInputs st₀ e t)) p (addOut env s e es) := by
  refine .bind (evaluatePath_moves _ _ _) fun n q _ => ?_
  apply Moves.get_bind
  cases h : q.state.addOut n e with
  | error err => exact .bind (orFail_moves _) fun _ _ hx => absurd hx throw_ok
  | ok st' =>
    refine .bind (.pure _) fun st q' hq => ?_
    obtain ⟨rfl, rfl⟩ := pure_ok.mp hq
    exact While.step (addOut_noInputs h) fun hs => .addOut hs.1.last n h

lemma addPaths_moves (env : Env) (s : ScopeId) {add : State → Path → EdgeId → State}
    (hkeep : ∀ st n, Building st₀ e t st → Building st₀ e t (add st n e))
    (hadd : ∀ st n, st.IsLast e → ParseStep st (add st n e)) (ess : List EvalString) :
    Moves (While (Building st₀ e t)) p (forEach ess (addPath env s add e)) := by
  refine .forEach fun es _ q => .bind (evaluatePath_moves _ _ _) fun n q _ => ?_
  exact While.step (hkeep _ n) fun h => hadd _ n h.last

lemma dropSelfReference_moves (opts : ParserOptions) :
    Moves (While (Building st₀ e t)) p (dropSelfReference opts e) := by
  apply Moves.get_bind
  refine .ite (fun _ => ?_) fun _ => .pure _
  refine .bind (checked_moves _) fun out q _ => ?_
  exact While.step Building.removeInput fun h => .removeInput h.last out

lemma setDyndep_moves (env : Env) : Moves (While (Building st₀ e t)) p (setDyndep env e) := by
  refine .bind (edgeBinding_moves _ _ _) fun name q _ => ?_
  cases name with
  | nil => exact .pure _
  | cons c cs =>
    refine .bind (While.step (fun h => (h.touch.setNode _).setEdge fun _ => ⟨rfl, rfl⟩)
      fun h => .setDyndep h.last _) fun _ q' _ => ?_
    apply Moves.get_bind
    refine .ite (fun _ => fail_moves _) fun _ => ?_
    exact .ite (fun _ => .throw _) fun _ => .pure _

lemma connectInputs_moves (env : Env) (opts : ParserOptions) (stmt : BuildStatement) (s : ScopeId) :
    Moves (While (Building st₀ e t)) p (connectInputs env opts stmt s e) := by
  refine .bind (While.step (fun h => h.setEdge fun _ => ⟨rfl, rfl⟩)
    fun h => .setImplicitOuts h.last _) fun _ q _ => ?_
  refine .bind (addPaths_moves env s (fun _ _ h => h.addTo (by simp) _)
    (fun _ n he => .addExplicitIn he n) _) fun _ q _ => ?_
  refine .bind (addPaths_moves env s (fun _ _ h => h.addTo (by simp) _)
    (fun _ n he => .addImplicitIn he n) _) fun _ q _ => ?_
  refine .bind (addPaths_moves env s (fun _ _ h => h.addTo (by simp) _)
    (fun _ n he => .addOrderOnlyIn he n) _) fun _ q _ => ?_
  refine .bind (addPaths_moves env s (fun _ _ h => h.addTo (by simp) _)
    (fun _ n he => .addValidation he n) _) fun _ q _ => ?_
  refine .bind (dropSelfReference_moves opts) fun _ q _ => ?_
  exact setDyndep_moves env

lemma addEdge_noInputs (st : State) (rule : Rule) (t : ScopeId) :
    NoInputs st st.world.edgeCount t (st.addEdge rule t) := by
  refine ⟨⟨rfl, ⟨rfl, rfl, rfl, rfl, rfl⟩, fun i hi => ?_, ?_⟩, ?_⟩
  · simp [State.addEdge, Nat.ne_of_lt hi]
  · simp [State.addEdge]
  · simp [State.addEdge, Edge.inputs]

lemma removeLastEdge_kept {s : ScopeId} (h : Building st₀ st₀.world.edgeCount t st) :
    Kept s st₀ st.removeLastEdge := by
  have last : st.world.edgeCount - 1 = st₀.world.edgeCount := by
    rw [← h.last]
    rfl
  refine ⟨⟨h.scopes.scopes, h.scopes.vars, h.scopes.parents, h.scopes.rules, h.scopes.count⟩,
    fun m hm => ⟨?_, fun i hi => ?_⟩, fun e he he' => ?_⟩
  · simpa [State.removeLastEdge, last] using hm
  · have hi' : i < st₀.world.edgeCount := Nat.lt_of_lt_of_le hi hm
    simp only [State.removeLastEdge, last, Function.update_of_ne (Nat.ne_of_lt hi')]
    exact h.edges i hi'
  · exact absurd (Nat.lt_of_lt_of_eq he' last) (Nat.not_lt.mpr he)

lemma While.moves {R : Parser → Parser → Prop} [Closed R] {α : Type} {m : P α}
    (h : Moves (While (Kept p.env p.state)) p m) : Moves R p m := by
  have start : Kept p.env p.state p.state :=
    ⟨⟨rfl, rfl, rfl, rfl, rfl⟩, fun m => .refl m _, fun _ h h' => absurd h' (Nat.not_lt.mpr h)⟩
  obtain ⟨kept, henv, steps⟩ := h start
  unfold Moves
  generalize finalState (m p) = q at kept henv steps
  obtain ⟨state, lexer, s⟩ := q
  obtain rfl : s = p.env := henv
  exact IsTrans.trans _ _ _
    (Closed.change p state (.build steps kept.scopes kept.edges kept.new))
    (IgnoresLexer.lexer { p with state := state } lexer)

/-- Once the edge is there, its outputs come first; without any it is taken away again. -/
lemma parseEdge_moves {R : Parser → Parser → Prop} [Closed R] (env : Env) (opts : ParserOptions) :
    Moves R p (parseEdge env opts) := by
  refine .bind readBuildLine_moves fun stmt q₀ _ => ?_
  refine .bind readEdgeScope_moves fun t q ht => ?_
  apply Moves.get_bind
  apply While.moves
  have kept : ∀ (st : State) (_ : ScopeId), Building q.state q.state.world.edgeCount t st →
      Kept q.env q.state st :=
    fun _ _ h => h.kept (readEdgeScope_exists ht)
  refine .bind (.modify fun _ => ⟨kept _ q.env (addEdge_noInputs _ _ _).1, rfl,
    .single (.addEdge _ _ _)⟩) fun _ q₁ h₁ => ?_
  have start : NoInputs q.state q.state.world.edgeCount t q₁.state := by
    obtain rfl := modify_ok.mp h₁
    exact addEdge_noInputs _ _ _
  refine .bind (During.weaken setEdgePool_moves start fun st s h => kept st s h.1)
    fun _ q₂ h₂ => ?_
  have pooled := ((setEdgePool_moves.of_ok h₂) start).1
  have outs : Moves (While (NoInputs q.state q.state.world.edgeCount t)) q₂
      (forEach stmt.outs (addOut env t q.state.world.edgeCount)) :=
    Moves.forEach fun es _ _ => addOut_moves env t es
  refine .bind (During.weaken outs pooled fun st s h => kept st s h.1) fun _ q₃ h₃ => ?_
  obtain ⟨building, noInputs⟩ := ((outs.of_ok h₃) pooled).1
  apply Moves.get_bind
  refine .ite (fun ho => ?_) fun _ => ?_
  · refine .modify fun _ => ⟨removeLastEdge_kept building, rfl, ?_⟩
    exact .single (.removeLastEdge building.last noInputs ho)
  · exact During.weaken (connectInputs_moves env opts stmt t) building kept

end Edges

/-! ### Files -/

section Files

variable {R : Parser → Parser → Prop} [Closed R] {p : Parser}

lemma defaultsLoop_moves (env : Env) (fuel : Nat) (es : EvalString) :
    Moves R p (defaultsLoop env fuel es) := by
  induction fuel generalizing p es with
  | zero => exact .throw _
  | succ fuel ih =>
    apply Moves.get_bind
    refine .bind (evaluatePath_moves _ _ _) fun n q _ => ?_
    apply Moves.get_bind
    cases h : q.state.addDefault (env.canonicalizePath n) with
    | error err => exact fail_moves err
    | ok st' =>
      refine .bind (modifyState_moves (.addDefault _ h)) fun _ q _ => ?_
      refine .bind readPath_moves fun next q _ => ?_
      exact .ite (fun _ => .pure _) fun _ => ih next

lemma parseDefault_moves (env : Env) : Moves R p (parseDefault env) := by
  refine .bind readPath_moves fun es q _ => ?_
  refine .ite (fun _ => fail_moves _) fun _ => ?_
  apply Moves.get_bind
  exact .bind (defaultsLoop_moves env _ es) fun _ _ _ => expectToken_moves _

lemma checkVariable_moves (opts : ParserOptions) (name value : GoString) :
    Moves R p (checkVariable opts name value) := by
  refine .ite (fun _ => ?_) fun _ => .pure _
  refine .bind (checked_moves _) fun _ q _ => ?_
  refine .bind (checked_moves _) fun _ q _ => ?_
  exact .ite (fun _ => .throw _) fun _ => .pure _

lemma parseVariable_moves (opts : ParserOptions) : Moves R p (parseVariable opts) := by
  refine .bind (lexing_moves _) fun _ q _ => ?_
  refine .bind parseLet_moves fun kv q _ => ?_
  apply Moves.get_bind
  refine .bind (evaluate_moves _ _) fun value q _ => ?_
  refine .bind (checkVariable_moves opts _ _) fun _ q _ => ?_
  apply Moves.get_bind
  exact modifyState_moves (.addBinding _ (fun _ => Nat.le_refl _) _ _)

lemma readFile_moves (filename : GoString) : Moves R p (readFile filename) := by
  apply Moves.get_bind
  match p.state.world.disk.readFile filename with
  | .ok (some content) => exact .pure content
  | .ok none => exact .throw _
  | .error err => exact .throw _

lemma enterScope_moves (newScope : Bool) : Moves R p (enterScope newScope) := by
  refine .ite (fun _ => ?_) fun _ => .pure _
  exact .modify (Closed.enter p)

/-- What a program keeps of a relation to an earlier parser. -/
def Since (R : Parser → Parser → Prop) (p₀ p q : Parser) : Prop := R p₀ p → R p₀ q

instance (p₀ : Parser) : IgnoresLexer (Since R p₀) where
  trans _ _ _ h₁ h₂ h := h₂ (h₁ h)
  lexer p l h := IsTrans.trans _ _ _ h (IgnoresLexer.lexer p l)

lemma Since.of_moves {α : Type} {m : P α} {p₀ : Parser} (h : Moves R p m) :
    Moves (Since R p₀) p m := fun hp => IsTrans.trans _ _ _ hp h

lemma parseFileInclude_moves {parseFile : GoString → P Unit}
    (h : ∀ filename p, Moves R p (parseFile filename)) (newScope : Bool) :
    Moves R p (parseFileInclude parseFile newScope) := by
  refine .bind readPath_moves fun es q₀ _ => ?_
  apply Moves.get_bind
  -- the way out of the file goes back to the scope of `q₀`
  suffices since : Moves (Since R q₀) q₀ _ from since (Std.Refl.refl (r := R) q₀)
  refine .bind (Since.of_moves (enterScope_moves newScope)) fun _ q₁ _ => ?_
  refine .bind (Since.of_moves (h _ q₁)) fun _ q₂ _ => ?_
  refine .bind (.modify fun hq => ?_) fun _ q₃ _ => expectToken_moves _
  exact IsTrans.trans _ _ _ (Closed.leave _ _ hq)
    (IgnoresLexer.lexer { q₂ with env := q₀.env } q₀.lexer)

lemma parseStatement_moves (env : Env) (opts : ParserOptions) {parseFile : GoString → P Unit}
    (h : ∀ filename p, Moves R p (parseFile filename)) (token : Lexer.Token) :
    Moves R p (parseStatement env opts parseFile token) := by
  have goOn {m : P Unit} (hm : Moves R p m) :
      Moves R p (m >>= fun _ => pure true) :=
    Moves.bind hm fun _ _ _ => .pure _
  cases token with
  | pool => exact goOn parsePool_moves
  | build => exact goOn (parseEdge_moves env opts)
  | rule => exact goOn parseRule_moves
  | default => exact goOn (parseDefault_moves env)
  | ident => exact goOn (parseVariable_moves opts)
  | «include» => exact goOn (parseFileInclude_moves h false)
  | subninja => exact goOn (parseFileInclude_moves h true)
  | error => exact .get_bind (.bind (checked_moves _) fun _ _ _ => fail_moves _)
  | eof => exact .pure false
  | newline => exact .pure true
  | colon | equals | indent | pipe | pipe2 | pipeAt => exact fail_moves _

lemma parseLoop_moves (env : Env) (opts : ParserOptions) {parseFile : GoString → P Unit}
    (h : ∀ filename p, Moves R p (parseFile filename)) (fuel : Nat) :
    Moves R p (parseLoop env opts parseFile fuel) := by
  induction fuel generalizing p with
  | zero => exact .throw _
  | succ fuel ih =>
    refine .bind (lexing_moves _) fun token q _ => ?_
    refine .bind (parseStatement_moves env opts h token) fun more q _ => ?_
    exact .ite (fun _ => ih) fun _ => .pure _

/-- Parsing a file, with all the files it includes, is a sequence of steps. -/
theorem parseFile_moves (env : Env) (opts : ParserOptions) (depth : Nat) (filename : GoString) :
    Moves R p (parseFile env opts depth filename) := by
  induction depth generalizing p filename with
  | zero => exact .throw _
  | succ depth ih =>
    refine .bind (readFile_moves filename) fun content q _ => ?_
    refine .bind (setLexer_moves _) fun _ q _ => ?_
    exact parseLoop_moves env opts (fun filename _ => ih filename) _

end Files

/-- A parse of a file on a disk has come to the parser `p`, which is about to read a statement.
The files that are being read are listed, the innermost one first. -/
inductive At (env : Env) (opts : ParserOptions) (disk : Disk) : List GoString → Parser → Prop
  | start {filename content : GoString} (h : disk.readFile filename = .ok (some content)) :
      At env opts disk [filename]
        { state := State.initial disk, lexer := Lexer.start filename content }
  | statement {files : List GoString} {p q r : Parser} {token : Lexer.Token} {depth : Nat}
      (h : At env opts disk files p) (hread : lexing Checked.readToken p = .ok token q)
      (hstmt : parseStatement env opts (parseFile env opts depth) token q = .ok true r) :
      At env opts disk files r
  | enter {files : List GoString} {p q q₁ q₂ q₃ : Parser} {newScope : Bool} {es : EvalString}
      {content : GoString} (h : At env opts disk files p)
      (hread : lexing Checked.readToken p = .ok (if newScope then .subninja else .«include») q)
      (hpath : readPath q = .ok es q₁) (hscope : enterScope newScope q₁ = .ok () q₂)
      (hfile : readFile (q₁.state.evaluate q₁.env es) q₂ = .ok content q₃) :
      At env opts disk (q₁.state.evaluate q₁.env es :: files)
        { q₃ with lexer := Lexer.start (q₁.state.evaluate q₁.env es) content }

/-- What holds between the parsers before and after every statement holds between the first
parser and all that come up in the parse. -/
lemma At.moves {R : Parser → Parser → Prop} [Closed R] {env : Env} {opts : ParserOptions}
    {disk : Disk} {files : List GoString} {p : Parser} (h : At env opts disk files p) :
    R { state := State.initial disk } p := by
  induction h with
  | start => exact IgnoresLexer.lexer { state := State.initial disk } _
  | statement _ hread hstmt ih =>
    have token := (lexing_moves (R := R) _).of_ok hread
    have stmt := (parseStatement_moves (R := R) _ _ (fun f _ => parseFile_moves _ _ _ f) _).of_ok
      hstmt
    exact IsTrans.trans _ _ _ ih (IsTrans.trans _ _ _ token stmt)
  | @enter files p q q₁ q₂ q₃ newScope es content _ hread hpath hscope hfile ih =>
    have token := (lexing_moves (R := R) _).of_ok hread
    have path := (readPath_moves (R := R)).of_ok hpath
    have scope := (enterScope_moves (R := R) newScope).of_ok hscope
    have file := (readFile_moves (R := R) _).of_ok hfile
    have inside := IsTrans.trans _ _ _ scope (IsTrans.trans _ _ _ file
      (IgnoresLexer.lexer (R := R) q₃ (Lexer.start (q₁.state.evaluate q₁.env es) content)))
    exact IsTrans.trans _ _ _ ih (IsTrans.trans _ _ _ token (IsTrans.trans _ _ _ path inside))

end Parser

lemma Parses.steps {env : Env} {opts : ParserOptions} {disk : Disk} {filename : GoString}
    {st : State} (h : Parses env opts disk filename st) : ParseSteps (State.initial disk) st := by
  obtain ⟨depth, p, hp, rfl⟩ := h
  exact (Parser.parseFile_moves (R := Parser.Via ParseSteps) env opts depth filename).of_ok hp

end Reninja
