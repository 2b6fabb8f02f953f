import Mathlib.Data.List.Lex
import Reninja.Manifest.Env

/-!
# Looking up a variable of an edge

The stack of variables that are being expanded is searched as if it were sorted. It is: a
variable is only put on it when it is greater than the last one. A lookup that succeeds inside
of another one therefore succeeds by itself, with the same value.
-/

namespace Reninja

open List

open Program

variable {l : List GoString} {v : GoString}

/-- The test lets a variable pass only behind the last one on the stack. -/
lemma last_lt_of_searchStrings {l : List GoString} {u v : GoString}
    (h : searchStrings (l ++ [u]) v = (l ++ [u]).length) : u < v := by
  have hlast := Search.last_of_search_eq h (by simp)
  simp only [length_append, length_singleton, Nat.add_sub_cancel,
    getD_eq_getElem?_getD, getElem?_concat_length, Option.getD_some,
    Bool.not_eq_false', lex_eq_true_iff_lt] at hlast
  exact hlast

lemma searchStrings_of_forall_lt (h : ∀ u ∈ l, u < v) : searchStrings l v = l.length := by
  apply Search.search_eq_of_false
  intro i hi
  simp only [getD_eq_getElem?_getD, getElem?_eq_getElem hi, Option.getD_some,
    Bool.not_eq_false', lex_eq_true_iff_lt]
  exact h _ (getElem_mem hi)

/-- On a sorted end of the stack, the test of the whole stack decides. -/
lemma forall_lt_of_searchStrings {l m : List GoString} (hm : m.Pairwise (· < ·))
    (h : searchStrings (l ++ m) v = (l ++ m).length) : ∀ u ∈ m, u < v := by
  rcases eq_nil_or_concat m with rfl | ⟨m, last, rfl⟩
  · simp
  · rw [concat_eq_append] at hm h ⊢
    rw [← append_assoc] at h
    have hlast := last_lt_of_searchStrings h
    intro u hu
    rcases mem_append.mp hu with hu | hu
    · exact List.lt_trans (List.pairwise_append.mp hm |>.2.2 u hu last (by simp)) hlast
    · rwa [mem_singleton.mp hu]

lemma Pairwise.push {m : List GoString} (hm : m.Pairwise (· < ·)) (h : ∀ u ∈ m, u < v) :
    (m ++ [v]).Pairwise (· < ·) :=
  pairwise_append.mpr ⟨hm, pairwise_singleton _ _, by simpa using h⟩

section Evaluate

variable {ε σ τ : Type}

/-- If every variable has the same value with the two lookups, which leave their state alone,
then so has the string. -/
lemma EvalString.evaluate_transfer {lookup : GoString → EStateM ε σ GoString}
    {lookup' : GoString → EStateM ε τ GoString} {s : σ} {t : τ}
    (h : ∀ v value s', lookup v s = .ok value s' → s' = s ∧ lookup' v t = .ok value t)
    {es : EvalString} {value : GoString} {s' : σ} (hes : es.evaluate lookup s = .ok value s') :
    s' = s ∧ es.evaluate lookup' t = .ok value t := by
  have tokens : ∀ (ts : List EvalString.Token) (value : GoString) (s' : σ),
      EvalString.evaluate.tokens lookup ts s = .ok value s' →
        s' = s ∧ EvalString.evaluate.tokens lookup' ts t = .ok value t := by
    intro ts
    induction ts with
    | nil =>
      intro value s' hts
      obtain ⟨rfl, rfl⟩ := pure_ok.mp hts
      exact ⟨rfl, rfl⟩
    | cons token ts ih =>
      intro value s' hts
      cases token with
      | raw text =>
        obtain ⟨rest, s₁, hrest, hv⟩ := bind_ok.mp hts
        obtain ⟨rfl, hrest'⟩ := ih _ _ hrest
        obtain ⟨rfl, rfl⟩ := pure_ok.mp hv
        exact ⟨rfl, bind_ok.mpr ⟨rest, t, hrest', rfl⟩⟩
      | special name =>
        obtain ⟨first, s₁, hfirst, hv⟩ := bind_ok.mp hts
        obtain ⟨rfl, hfirst'⟩ := h _ _ _ hfirst
        obtain ⟨rest, s₂, hrest, hsum⟩ := bind_ok.mp hv
        obtain ⟨rfl, hrest'⟩ := ih _ _ hrest
        obtain ⟨rfl, rfl⟩ := pure_ok.mp hsum
        exact ⟨rfl, bind_ok.mpr ⟨first, t, hfirst', bind_ok.mpr ⟨rest, t, hrest', rfl⟩⟩⟩
  unfold EvalString.evaluate at hes ⊢
  by_cases hp : es.parsed = []
  · rw [if_pos hp] at hes ⊢
    obtain ⟨rfl, rfl⟩ := pure_ok.mp hes
    exact ⟨rfl, rfl⟩
  · rw [if_neg hp] at hes ⊢
    exact tokens _ _ _ hes

end Evaluate

/-! ### One lookup -/

namespace State

variable {st : State} {e : EdgeId} {b : Bool} {v value : GoString} {env env' : EdgeEnv}
variable {n : Nat}
variable {lookup : GoString → EStateM Failure EdgeEnv GoString} {eval : Option EvalString}

/-- The stack during the expansion of `v`. -/
def pushed (st : State) (e : EdgeId) (v : GoString) (env : EdgeEnv) : EdgeEnv where
  lookups := if env.isRecursive && ((st.edgeRule e).bindings v).isSome then env.lookups ++ [v]
    else env.lookups
  isRecursive := true

def popped (st : State) (e : EdgeId) (v : GoString) (env env' : EdgeEnv) : EdgeEnv where
  lookups := if env.isRecursive && ((st.edgeRule e).bindings v).isSome then env'.lookups.dropLast
    else env'.lookups
  isRecursive := env'.isRecursive

lemma popped_pushed (env : EdgeEnv) :
    st.popped e v env (st.pushed e v env) = { env with isRecursive := true } := by
  unfold popped pushed
  split <;> simp

def popResult (st : State) (e : EdgeId) (v : GoString) (env : EdgeEnv) :
    EStateM.Result Failure EdgeEnv GoString → EStateM.Result Failure EdgeEnv GoString
  | .ok value env' => .ok value (st.popped e v env env')
  | .error f env' => .error f env'

/-- A variable that the edge does not define itself: after the test for a cycle it gets its value
from a scope or from the rule. -/
lemma edgeLookup_succ (hb : st.builtin e b v = none) : st.edgeLookup e b (n + 1) v env =
      if env.isRecursive = true ∧ searchStrings env.lookups v ≠ env.lookups.length then
        .error (.fatal (("cycle in rule variables: " : GoString) ++
          ((env.lookups.drop (searchStrings env.lookups v)).flatMap fun s =>
            s ++ (" -> " : GoString)) ++ v)) env
      else
        st.popResult e v env (st.lookupWithFallback e (st.edgeLookup e b n) v
          ((st.edgeRule e).bindings v) (st.pushed e v env)) := by
  rw [edgeLookup]
  simp only [hb]
  rw [bind_apply, checkCycle, bind_apply, get_apply]
  simp only
  by_cases hc : env.isRecursive = true ∧ searchStrings env.lookups v ≠ env.lookups.length
  · rw [if_pos hc, if_pos hc]
    rfl
  · rw [if_neg hc, if_neg hc]
    simp only [pure_apply, bind_apply, get_apply, setLookups, modify_apply, pushed]
    generalize st.lookupWithFallback e _ _ _ _ = r
    cases r <;> rfl

lemma edgeLookup_ok (hb : st.builtin e b v = none) :
    st.edgeLookup e b (n + 1) v env = .ok value env' ↔
      (env.isRecursive = true → searchStrings env.lookups v = env.lookups.length) ∧
        ∃ env₁, st.lookupWithFallback e (st.edgeLookup e b n) v ((st.edgeRule e).bindings v)
          (st.pushed e v env) = .ok value env₁ ∧ env' = st.popped e v env env₁ := by
  rw [edgeLookup_succ hb]
  split
  next hc =>
    constructor
    · nofun
    · rintro ⟨hpass, -⟩
      exact absurd (hpass hc.1) hc.2
  next hc =>
    have hpass : env.isRecursive = true → searchStrings env.lookups v = env.lookups.length := by
      intro hr
      by_contra hne
      exact hc ⟨hr, hne⟩
    generalize st.lookupWithFallback e _ _ _ _ = r
    cases r with
    | ok a t =>
      constructor
      · rintro ⟨⟩
        exact ⟨hpass, t, rfl, rfl⟩
      · rintro ⟨-, _, ⟨⟩, rfl⟩
        rfl
    | error f t => simp [popResult]

lemma lookupWithFallback_ok : st.lookupWithFallback e lookup v eval env = .ok value env' ↔
      (st.binding (st.world.edges e).scope v = some value ∧ env' = env) ∨
      (st.binding (st.world.edges e).scope v = none ∧
        ((∃ es, eval = some es ∧ es.evaluate lookup env = .ok value env') ∨
          (eval = none ∧ env' = env ∧
            ((st.world.edges e).parents.findSome? fun s => st.binding s v).getD [] = value))) := by
  unfold lookupWithFallback
  cases st.binding (st.world.edges e).scope v with
  | some a => simp [eq_comm]
  | none =>
    cases eval with
    | some es => simp
    | none => simp [pure_ok, and_comm, eq_comm (a := env)]

lemma lookupWithFallback_env (hl : ∀ u val s', lookup u env = .ok val s' → s' = env)
    (h : st.lookupWithFallback e lookup v eval env = .ok value env') : env' = env := by
  rcases lookupWithFallback_ok.mp h with ⟨-, rfl⟩ | ⟨-, ⟨es, -, hes⟩ | ⟨-, rfl, -⟩⟩
  · rfl
  · have same : ∀ u val s', lookup u env = .ok val s' → s' = env ∧ lookup u env = .ok val env := by
      intro u val s' hu
      obtain rfl := hl u val s' hu
      exact ⟨rfl, hu⟩
    exact (EvalString.evaluate_transfer same hes).1
  · rfl

lemma edgeLookup_env {n : Nat} (hr : env.isRecursive = true)
    (h : st.edgeLookup e b n v env = .ok value env') : env' = env := by
  induction n generalizing v env value env' with
  | zero => exact absurd h throw_ok
  | succ n ih =>
    cases hb : st.builtin e b v with
    | some w =>
      rw [edgeLookup, hb] at h
      exact (pure_ok.mp h).2.symm
    | none =>
      obtain ⟨-, env₁, hf, rfl⟩ := (edgeLookup_ok hb).mp h
      rw [lookupWithFallback_env (fun _ _ _ hu => ih rfl hu) hf, popped_pushed]
      cases env
      simp_all

/-- A lookup that succeeds with a longer stack succeeds with the sorted end of it. -/
lemma edgeLookup_relax {l m : List GoString} (hm : m.Pairwise (· < ·))
    (h : st.edgeLookup e b n v ⟨l ++ m, true⟩ = .ok value env') :
    st.edgeLookup e b n v ⟨m, true⟩ = .ok value ⟨m, true⟩ := by
  induction n generalizing v l m value env' with
  | zero => exact absurd h throw_ok
  | succ n ih =>
    cases hb : st.builtin e b v with
    | some w =>
      rw [edgeLookup, hb] at h ⊢
      obtain ⟨rfl, -⟩ := pure_ok.mp h
      rfl
    | none =>
      obtain ⟨hpass, env₁, hf, -⟩ := (edgeLookup_ok hb).mp h
      have hlt := forall_lt_of_searchStrings hm (hpass rfl)
      refine (edgeLookup_ok hb).mpr ⟨fun _ => searchStrings_of_forall_lt hlt,
        st.pushed e v ⟨m, true⟩, ?_, (popped_pushed ⟨m, true⟩).symm⟩
      apply lookupWithFallback_ok.mpr
      rcases lookupWithFallback_ok.mp hf with ⟨hv, -⟩ | ⟨hv, ⟨es, hes, heval⟩ | ⟨hes, -, hp⟩⟩
      · exact Or.inl ⟨hv, rfl⟩
      · refine Or.inr ⟨hv, Or.inl ⟨es, hes, ?_⟩⟩
        -- the rule defines the variable, so it goes on both stacks
        simp only [pushed, hes, Option.isSome_some, Bool.and_true, if_true,
          append_assoc] at heval ⊢
        refine (EvalString.evaluate_transfer ?_ heval).2
        intro u val s' hu
        exact ⟨edgeLookup_env rfl hu, ih (Pairwise.push hm hlt) hu⟩
      · exact Or.inr ⟨hv, Or.inr ⟨hes, rfl, hp⟩⟩

/-- A lookup that succeeds inside of another one succeeds by itself. -/
lemma edgeLookup_alone (h : st.edgeLookup e b n v ⟨l, true⟩ = .ok value env') :
    ∃ env₁, st.edgeLookup e b n v {} = .ok value env₁ := by
  cases n with
  | zero => exact absurd h throw_ok
  | succ n =>
    cases hb : st.builtin e b v with
    | some w =>
      rw [edgeLookup, hb] at h ⊢
      obtain ⟨rfl, -⟩ := pure_ok.mp h
      exact ⟨_, rfl⟩
    | none =>
      obtain ⟨-, env₁, hf, -⟩ := (edgeLookup_ok hb).mp h
      refine ⟨_, (edgeLookup_ok hb).mpr ⟨nofun, ⟨[], true⟩, ?_, rfl⟩⟩
      apply lookupWithFallback_ok.mpr
      rcases lookupWithFallback_ok.mp hf with ⟨hv, -⟩ | ⟨hv, ⟨es, hes, heval⟩ | ⟨hes, -, hp⟩⟩
      · exact Or.inl ⟨hv, rfl⟩
      · refine Or.inr ⟨hv, Or.inl ⟨es, hes, ?_⟩⟩
        simp only [pushed, hes, Option.isSome_some, Bool.and_true, if_true] at heval
        refine (EvalString.evaluate_transfer ?_ heval).2
        intro u val s' hu
        refine ⟨edgeLookup_env rfl hu, ?_⟩
        rw [← append_nil (l ++ [v])] at hu
        exact edgeLookup_relax List.Pairwise.nil hu
      · exact Or.inr ⟨hv, Or.inr ⟨hes, rfl, hp⟩⟩

def Returns (st : State) (e : EdgeId) (v value : GoString) : Prop :=
  ∃ fuel, st.getBinding e true fuel v = .ok value

lemma returns_iff : st.Returns e v value ↔
    ∃ fuel env', st.edgeLookup e true fuel v {} = .ok value env' := by
  constructor
  · rintro ⟨fuel, h⟩
    unfold getBinding at h
    split at h
    · rename_i val env' hl
      obtain rfl := Except.ok.inj h
      exact ⟨fuel, env', hl⟩
    · exact absurd h (by simp)
  · rintro ⟨fuel, env', h⟩
    exact ⟨fuel, by rw [getBinding, h]⟩

lemma builtin_key (k : Key) : st.builtin e b k.name = none := by
  have hne : ∀ k ∈ Key.all, k.name ≠ "in" ∧ k.name ≠ "in_newline" ∧
      k.name ≠ "out" := by decide +kernel
  obtain ⟨h₁, h₂, h₃⟩ := hne k (by cases k <;> simp [Key.all])
  simp [builtin, h₁, h₂, h₃]

end State

end Reninja
