import Reninja.Graph.Basic
import Reninja.Library.Search

/-!
# Variables

`EvalString`, the scopes of a manifest and the lookup of variables for an edge. The scopes that
a build changes are part of the `World`, which keeps only the bindings that the build reads;
here are the other bindings, and the rules before expansion.
-/

namespace Reninja

open Program

inductive EvalString.Token where
  | raw (value : GoString)
  | special (name : GoString)
  deriving DecidableEq, Repr

structure EvalString where
  parsed : List EvalString.Token := []
  singleToken : GoString := []
  deriving DecidableEq, Repr

namespace EvalString

def empty (es : EvalString) : Bool := es.parsed = [] && es.singleToken = []

/-- `AddText`: without variables the text is kept in `singleToken`. -/
def addText (es : EvalString) (text : GoString) : EvalString :=
  match es.parsed.getLast? with
  | none => { es with singleToken := es.singleToken ++ text }
  | some (.raw t) => { es with parsed := es.parsed.dropLast ++ [.raw (t ++ text)] }
  | some (.special _) => { es with parsed := es.parsed ++ [.raw text] }

def addSpecial (es : EvalString) (varName : GoString) : EvalString :=
  if es.parsed = [] ∧ es.singleToken ≠ [] then
    { parsed := [.raw es.singleToken, .special varName] }
  else
    { es with parsed := es.parsed ++ [.special varName] }

def evaluate {m : Type → Type} [Monad m] (lookup : GoString → m GoString) (es : EvalString) :
    m GoString :=
  if es.parsed = [] then pure es.singleToken else tokens es.parsed
where
  tokens : List EvalString.Token → m GoString
    | [] => pure []
    | .raw t :: ts => do
      let rest ← tokens ts
      pure (t ++ rest)
    | .special v :: ts => do
      let value ← lookup v
      let rest ← tokens ts
      pure (value ++ rest)

/-! ### The single token is invisible -/

/-- One call that builds a string: `AddText` or `AddSpecial`. -/
def add (es : EvalString) : Token → EvalString
  | .raw text => es.addText text
  | .special name => es.addSpecial name

def ofCalls (calls : List Token) : EvalString := calls.foldl add {}

def Token.unparse : Token → GoString
  | .raw value => value
  | .special name => "$\x7b" ++ name ++ "\x7d"

def unparse (es : EvalString) : GoString :=
  if es.parsed = [] ∧ es.singleToken ≠ [] then es.singleToken
  else (es.parsed.map Token.unparse).flatten

def Token.value {m : Type → Type} [Monad m] (lookup : GoString → m GoString) : Token → m GoString
  | .raw value => pure value
  | .special name => lookup name

def tokens (es : EvalString) : List Token :=
  if es.parsed = [] then [.raw es.singleToken] else es.parsed

/-- A function of token lists that does not see whether adjacent texts are merged. -/
structure MergeInvariant {β : Type} (f : List Token → β) : Prop where
  merge : ∀ l r t u, f (l ++ .raw t :: .raw u :: r) = f (l ++ .raw (t ++ u) :: r)
  skip : ∀ r, f (.raw [] :: r) = f r

namespace MergeInvariant

variable {β : Type} {f : List Token → β} (hf : MergeInvariant f)
include hf

lemma addText (es : EvalString) (text : GoString) (r : List Token) :
    f ((es.addText text).tokens ++ r) = f (es.tokens ++ .raw text :: r) := by
  rcases es.parsed.eq_nil_or_concat with hnil | ⟨front, last, hlast⟩
  · simpa [EvalString.addText, tokens, hnil] using (hf.merge [] r es.singleToken text).symm
  · cases last with
    | raw t => simpa [EvalString.addText, tokens, hlast] using (hf.merge front r t text).symm
    | special name => simp [EvalString.addText, tokens, hlast]

lemma addSpecial (es : EvalString) (name : GoString) (r : List Token) :
    f ((es.addSpecial name).tokens ++ r) = f (es.tokens ++ .special name :: r) := by
  by_cases hnil : es.parsed = []
  · by_cases hsingle : es.singleToken = []
    · simpa [EvalString.addSpecial, tokens, hnil, hsingle] using (hf.skip (.special name :: r)).symm
    · simp [EvalString.addSpecial, tokens, hnil, hsingle]
  · simp [EvalString.addSpecial, tokens, hnil]

lemma foldl_add (es : EvalString) (calls : List Token) :
    f (calls.foldl add es).tokens = f (es.tokens ++ calls) := by
  induction calls generalizing es with
  | nil => simp
  | cons c calls ih =>
    rw [List.foldl_cons, ih]
    cases c with
    | raw text => exact hf.addText es text calls
    | special name => exact hf.addSpecial es name calls

lemma ofCalls (calls : List Token) : f (ofCalls calls).tokens = f calls :=
  (hf.foldl_add {} calls).trans (hf.skip calls)

end MergeInvariant

section Evaluate

variable {m : Type → Type} [Monad m] [LawfulMonad m] (lookup : GoString → m GoString)

lemma evaluate_tokens (es : EvalString) :
    es.evaluate lookup = evaluate.tokens lookup es.tokens := by
  by_cases hnil : es.parsed = []
  · simp [evaluate, tokens, evaluate.tokens, hnil]
  · simp [evaluate, tokens, hnil]

lemma evaluate_tokens_mapM (ts : List Token) : evaluate.tokens lookup ts =
    (do let values ← ts.mapM (Token.value lookup); pure values.flatten) := by
  induction ts with
  | nil => simp [evaluate.tokens]
  | cons t ts ih => cases t <;> simp [evaluate.tokens, Token.value, ih]

lemma evaluate_mergeInvariant : MergeInvariant (evaluate.tokens lookup) where
  merge l r t u := by simp [evaluate_tokens_mapM, Token.value]
  skip r := by simp [evaluate.tokens]

end Evaluate

lemma unparse_tokens (es : EvalString) :
    es.unparse = (es.tokens.map Token.unparse).flatten := by
  by_cases hnil : es.parsed = []
  · by_cases hsingle : es.singleToken = []
    · simp [unparse, tokens, hnil, hsingle, Token.unparse]
    · simp [unparse, tokens, hnil, hsingle, Token.unparse]
  · simp [unparse, tokens, hnil]

lemma unparse_mergeInvariant :
    MergeInvariant fun ts : List Token => (ts.map Token.unparse).flatten where
  merge l r t u := by simp [Token.unparse]
  skip r := by simp [Token.unparse]

/-- A string evaluates and unparses to what its calls say, whichever way it is kept. -/
theorem ofCalls_evaluate_unparse {m : Type → Type} [Monad m] [LawfulMonad m]
    (lookup : GoString → m GoString) (calls : List Token) :
    (ofCalls calls).evaluate lookup =
        (do let values ← calls.mapM (Token.value lookup); pure values.flatten) ∧
      (ofCalls calls).unparse = (calls.map Token.unparse).flatten := by
  constructor
  · rw [evaluate_tokens, (evaluate_mergeInvariant lookup).ofCalls, evaluate_tokens_mapM]
  · rw [unparse_tokens, unparse_mergeInvariant.ofCalls]

theorem ofCalls_evaluate_unparse_id :
    let calls : List Token := [.raw "a", .raw "", .special "in", .raw ".o"]
    Id.run ((ofCalls calls).evaluate fun name => pure (name ++ name)) = "ainin.o" ∧
      (ofCalls calls).unparse = "a$\x7bin\x7d.o" := by
  obtain ⟨hevaluate, hunparse⟩ := ofCalls_evaluate_unparse (m := Id)
    (fun name => pure (name ++ name)) [.raw "a", .raw "", .special "in", .raw ".o"]
  refine ⟨(congrArg Id.run hevaluate).trans ?_, hunparse.trans ?_⟩ <;> decide +kernel

end EvalString

structure Rule where
  name : GoString := []
  bindings : GoString → Option EvalString := fun _ => none
  phony : Bool := false

/-! ### Scopes -/

def Key.name : Key → GoString
  | .command        => "command"
  | .depfile        => "depfile"
  | .deps           => "deps"
  | .generator      => "generator"
  | .restat         => "restat"
  | .rspfile        => "rspfile"
  | .rspfileContent => "rspfile_content"

def Key.all : List Key :=
  [.command, .depfile, .deps, .generator, .restat, .rspfile, .rspfileContent]

def Key.ofName (v : GoString) : Option Key := Key.all.find? fun k => k.name = v

lemma Key.name_of_ofName {v : GoString} {k : Key} (h : Key.ofName v = some k) : k.name = v := by
  simpa using List.find?_some h

lemma Key.ofName_name (k : Key) : Key.ofName k.name = some k := by
  have h : ∀ k ∈ Key.all, Key.ofName k.name = some k := by decide +kernel
  exact h k (by cases k <;> simp [Key.all])

/-- The state that the parser of manifests builds: the graph, and what the scopes and rules
hold besides. `parents s` are the scopes around `s`, innermost first; `dropped` is written and
never read. -/
structure State where
  world : World := {}
  vars : ScopeId → GoString → Option GoString := fun _ _ => none
  parents : ScopeId → List ScopeId := fun _ => []
  rules : ScopeId → GoString → Option Rule := fun _ _ => none
  scopeCount : Nat := 1
  edgeRule : EdgeId → Rule := fun _ => {}
  poolIds : GoString → Option PoolId := fun _ => none
  poolCount : Nat := 0
  paths : List Path := []
  defaults : List Path := []
  dropped : List EdgeId := []

namespace State

variable (st : State)

def binding (s : ScopeId) (v : GoString) : Option GoString :=
  match Key.ofName v with
  | some k => st.world.scopes s k
  | none => st.vars s v

def lookupVariable (s : ScopeId) (v : GoString) : GoString :=
  ((s :: st.parents s).findSome? fun s => st.binding s v).getD []

def lookupRule (s : ScopeId) (name : GoString) : Option Rule :=
  (s :: st.parents s).findSome? fun s => st.rules s name

def addBinding (s : ScopeId) (v value : GoString) : State :=
  match Key.ofName v with
  | some k => { st with world := { st.world with
      scopes := Function.update st.world.scopes s
        (Function.update (st.world.scopes s) k (some value)) } }
  | none => { st with
      vars := Function.update st.vars s (Function.update (st.vars s) v (some value)) }

/-- `NewBindingEnv`: the new scope is `st.scopeCount`. -/
def newScope (parent : ScopeId) : State :=
  { st with
    scopeCount := st.scopeCount + 1
    parents := Function.update st.parents st.scopeCount (parent :: st.parents parent) }

def evaluate (s : ScopeId) (es : EvalString) : GoString :=
  Id.run (es.evaluate fun v => st.lookupVariable s v)

end State

/-! ### The variables of an edge -/

def isKnownShellSafeCharacter (c : UInt8) : Bool :=
  (65 ≤ c && c ≤ 90) || (97 ≤ c && c ≤ 122) || (48 ≤ c && c ≤ 57) ||
    c = 95 || c = 43 || c = 45 || c = 46 || c = 47

def getShellEscapedString (s : GoString) : GoString :=
  if s.all isKnownShellSafeCharacter then s
  else [39] ++ s.flatMap (fun c => if c = 39 then [39, 92, 39, 39] else [c]) ++ [39]

def makePathList (shellEscape : Bool) (paths : List Path) (sep : UInt8) : GoString :=
  [sep].intercalate (paths.map fun p => if shellEscape then getShellEscapedString p else p)

/-- What an `EdgeEnv` remembers between lookups. -/
structure EdgeEnv where
  lookups : List GoString := []
  isRecursive : Bool := false

def searchStrings (l : List GoString) (v : GoString) : Nat :=
  Search.search l.length fun i => !List.lex (l.getD i []) v

def checkCycle (v : GoString) : EStateM Failure EdgeEnv Unit := do
  let env ← get
  let i := searchStrings env.lookups v
  if env.isRecursive ∧ i ≠ env.lookups.length then
    throw (.fatal (("cycle in rule variables: " : GoString) ++
      ((env.lookups.drop i).flatMap fun s => s ++ (" -> " : GoString)) ++ v))
  else
    pure ()

namespace State

variable (st : State) (e : EdgeId) (shellEscape : Bool)

def lookupWithFallback (lookup : GoString → EStateM Failure EdgeEnv GoString) (v : GoString)
    (eval : Option EvalString) : EStateM Failure EdgeEnv GoString :=
  let x := st.world.edges e
  match st.binding x.scope v, eval with
  | some value, _ => pure value
  | none, some es => es.evaluate lookup
  | none, none => pure ((x.parents.findSome? fun s => st.binding s v).getD [])

def builtin (v : GoString) : Option GoString :=
  let x := st.world.edges e
  if v = "in" then some (makePathList shellEscape x.explicitInputs 32)
  else if v = "in_newline" then some (makePathList shellEscape x.explicitInputs 10)
  else if v = "out" then
    some (makePathList shellEscape (x.outputs.take (x.outputs.length - x.implicitOuts)) 32)
  else none

/-- Remember or forget a variable that is being expanded. -/
def setLookups (f : List GoString → List GoString) : EStateM Failure EdgeEnv Unit :=
  modify fun env => { env with lookups := f env.lookups }

def edgeLookup : Nat → GoString → EStateM Failure EdgeEnv GoString
  | 0, _ => throw .outOfFuel
  | fuel + 1, v =>
    match st.builtin e shellEscape v with
    | some value => pure value
    | none => do
      checkCycle v
      let eval := (st.edgeRule e).bindings v
      let recordVarname := (← get).isRecursive && eval.isSome
      setLookups fun l => if recordVarname then l ++ [v] else l
      modify fun env => { env with isRecursive := true }
      let result ← lookupWithFallback st e (edgeLookup fuel) v eval
      setLookups fun l => if recordVarname then l.dropLast else l
      pure result

def getBinding (fuel : Nat) (v : GoString) : Except Failure GoString :=
  match edgeLookup st e shellEscape fuel v {} with
  | .ok value _ => .ok value
  | .error f _ => .error f

end State

end Reninja
