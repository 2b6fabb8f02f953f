import Mathlib.Data.Set.Finite.Basic
import Mathlib.Order.Filter.AtTopBot.Basic
import Reninja.Manifest.Lookup

/-!
# The expansion of rule variables

What the expansion of a variable of an edge should be, and when `EdgeEnv.LookupVariable` gives it.
The stack of variables that are being expanded is searched for a cycle as if it were sorted, so that
a variable that comes before the last one on the stack is taken for a cycle.
-/

namespace Reninja

open Program Relation Filter List

namespace State

variable {r : EStateM.Result Failure EdgeEnv GoString} {fuel : Nat}
variable {S : Finset GoString} {l : List GoString} {value : GoString} {es : EvalString}

section Reference

variable (st : State) (e : EdgeId) (b : Bool)

/-- What a variable stands for: the lists of paths, the binding of the scope of the edge, the
binding of the rule, expanded, or that of a scope around. -/
def refValue : Nat → GoString → Option GoString
  | 0, _ => none
  | fuel + 1, v =>
    match st.builtin e b v with
    | some value => some value
    | none =>
      let x := st.world.edges e
      match st.binding x.scope v, (st.edgeRule e).bindings v with
      | some value, _ => some value
      | none, some es => es.evaluate (refValue fuel)
      | none, none => some ((x.parents.findSome? fun s => st.binding s v).getD [])

def Refers (v u : GoString) : Prop :=
  st.builtin e b v = none ∧ st.binding (st.world.edges e).scope v = none ∧
    ∃ es, (st.edgeRule e).bindings v = some es ∧ .special u ∈ es.parsed

/-- In the expansion of the variable one of the rule's refers back to itself. -/
def SelfReference (v : GoString) : Prop :=
  ∃ u, ReflTransGen (st.Refers e b) v u ∧ TransGen (st.Refers e b) u u

/-- From the variable on, those that are expanded from the rule refer to greater ones. -/
def OrderedFrom (v : GoString) : Prop :=
  ∀ u x, ReflTransGen (st.Refers e b) v u → st.Refers e b u x → st.builtin e b x = none → u < x

def OrderedBelow (v : GoString) : Prop :=
  ∀ u x, TransGen (st.Refers e b) v u → st.Refers e b u x → st.builtin e b x = none → u < x

end Reference

variable {st : State} {e : EdgeId} {b : Bool} {v : GoString}

lemma not_refers_of_builtin {u : GoString} (h : (st.builtin e b v).isSome = true) :
    ¬ st.Refers e b v u := by
  rintro ⟨hnone, -⟩
  rw [hnone] at h
  cases h

lemma orderedFrom_of_not_refers (h : ∀ u, ¬ st.Refers e b v u) : st.OrderedFrom e b v := by
  intro u x hreach hux
  rcases hreach.cases_head with rfl | ⟨y, hy, -⟩
  · exact absurd hux (h x)
  · exact absurd hy (h y)

lemma orderedFrom_iff : st.OrderedFrom e b v ↔
    ∀ u, st.Refers e b v u → (st.builtin e b u).isSome = true ∨ v < u ∧ st.OrderedFrom e b u := by
  constructor
  · intro h u hvu
    by_cases hu : st.builtin e b u = none
    · exact .inr ⟨h v u .refl hvu hu, fun x y hx => h x y (.head hvu hx)⟩
    · exact .inl (Option.isSome_iff_ne_none.mpr hu)
  · intro h u x hreach hux hx
    rcases hreach.cases_head with rfl | ⟨y, hvy, hyu⟩
    · rcases h x hux with hbuiltin | ⟨hlt, -⟩
      · rw [hx] at hbuiltin
        cases hbuiltin
      · exact hlt
    · rcases h y hvy with hbuiltin | ⟨-, hordered⟩
      · exact absurd hux (orderedFrom_of_builtin_reach hbuiltin hyu)
      · exact hordered u x hyu hux hx
where
  orderedFrom_of_builtin_reach {y u x : GoString} (hy : (st.builtin e b y).isSome = true)
      (hyu : ReflTransGen (st.Refers e b) y u) : ¬ st.Refers e b u x := by
    rcases hyu.cases_head with rfl | ⟨z, hz, -⟩
    · exact not_refers_of_builtin hy
    · exact absurd hz (not_refers_of_builtin hy)

lemma orderedBelow_iff : st.OrderedBelow e b v ↔
    ∀ u, st.Refers e b v u → st.OrderedFrom e b u := by
  constructor
  · intro h u hvu x y hx
    exact h x y (TransGen.head' hvu hx)
  · intro h u x hreach
    obtain ⟨y, hvy, hyu⟩ := TransGen.head'_iff.mp hreach
    exact h y hvy u x hyu

/-- A variable that refers back to itself cannot be less than itself. -/
lemma OrderedBelow.not_selfReference (h : st.OrderedBelow e b v) : ¬ st.SelfReference e b v := by
  rintro ⟨u, hvu, huu⟩
  have hlt : ∀ x, TransGen (st.Refers e b) u x → st.builtin e b x = none → u < x := by
    intro x hx
    induction hx with
    | single hux => exact h u _ (TransGen.trans_right hvu huu) hux
    | @tail y x huy hyx ih =>
      intro hnone
      exact List.lt_trans (ih hyx.1)
        (h y x (TransGen.trans_right hvu huy) hyx hnone)
  obtain ⟨y, huy, -⟩ := TransGen.head'_iff.mp huu
  exact List.lt_irrefl _ (hlt u huu huy.1)

/-! ### One lookup after the other -/

/-- What a lookup comes to: the value of the reference if things are as `good` says, `util.Fatal` if
not, unless the fuel is short. -/
def LookupOutcome (s : EdgeEnv) (ref : Option GoString) (good short : Prop) :
    EStateM.Result Failure EdgeEnv GoString → Prop
  | .ok value s' => s' = s ∧ ref = some value ∧ good
  | .error (.fatal _) _ => ¬ good
  | .error .outOfFuel _ => short
  | .error (.error _) _ => False
  | .error (.panic _) _ => False

section Outcome

variable {s : EdgeEnv} {ref : Option GoString} {good good' short short' : Prop}
variable {lookup : GoString → EStateM Failure EdgeEnv GoString}
  {m : EStateM Failure EdgeEnv GoString} {refs : GoString → Option GoString}

lemma LookupOutcome.bind {k : GoString → EStateM Failure EdgeEnv GoString}
    {r : GoString → Option GoString} (hm : LookupOutcome s ref good short (m s))
    (hk : ∀ value, LookupOutcome s (r value) good' short (k value s)) :
    LookupOutcome s (ref.bind r) (good ∧ good') short ((m >>= k) s) := by
  rw [bind_apply]
  cases hr : m s with
  | ok value s' =>
    rw [hr] at hm
    obtain ⟨rfl, rfl, hgood⟩ := hm
    have hrest := hk value
    dsimp only
    cases hr' : k value s' with
    | ok text s'' =>
      rw [hr'] at hrest
      exact ⟨hrest.1, hrest.2.1, hgood, hrest.2.2⟩
    | error f s'' =>
      rw [hr'] at hrest
      cases f with
      | fatal _ => exact fun h => hrest h.2
      | outOfFuel => exact hrest
      | error _ => exact hrest
      | panic _ => exact hrest
  | error f s' =>
    rw [hr] at hm
    cases f with
    | fatal _ => exact fun h => hm h.1
    | outOfFuel => exact hm
    | error _ => exact hm
    | panic _ => exact hm

lemma LookupOutcome.congr (h : LookupOutcome s ref good short r) (hgood : good ↔ good')
    (hshort : short → short') : LookupOutcome s ref good' short' r := by
  cases r with
  | ok value s' => exact ⟨h.1, h.2.1, hgood.mp h.2.2⟩
  | error f s' =>
    cases f with
    | fatal _ => exact mt hgood.mpr h
    | outOfFuel => exact hshort h
    | error _ => exact h
    | panic _ => exact h

lemma LookupOutcome.map (hm : LookupOutcome s ref good short (m s)) (f : GoString → GoString) :
    LookupOutcome s (ref.bind fun value => some (f value)) good short
      ((m >>= fun value => pure (f value)) s) := by
  have hpure : ∀ value, LookupOutcome s (some (f value)) True short (.ok (f value) s) :=
    fun value => ⟨rfl, rfl, trivial⟩
  exact (hm.bind hpure).congr (Iff.of_eq (and_true good)) id

lemma tokens_outcome {G : GoString → Prop} {ts : List EvalString.Token}
    (h : ∀ u, .special u ∈ ts → LookupOutcome s (refs u) (G u) short (lookup u s)) :
    LookupOutcome s (EvalString.evaluate.tokens refs ts) (∀ u, .special u ∈ ts → G u) short
      (EvalString.evaluate.tokens lookup ts s) := by
  induction ts with
  | nil => exact ⟨rfl, rfl, fun _ hu => absurd hu not_mem_nil⟩
  | cons token ts ih =>
    have hrest := ih fun u hu => h u (mem_cons_of_mem _ hu)
    cases token with
    | raw text =>
      refine LookupOutcome.congr (hrest.map (text ++ ·)) ?_ id
      simp
    | special name =>
      refine LookupOutcome.congr ((h name mem_cons_self).bind fun value =>
        hrest.map (value ++ ·)) ?_ id
      simp

lemma evaluate_outcome {G : GoString → Prop}
    (h : ∀ u, .special u ∈ es.parsed → LookupOutcome s (refs u) (G u) short (lookup u s)) :
    LookupOutcome s (es.evaluate refs) (∀ u, .special u ∈ es.parsed → G u) short
      (es.evaluate lookup s) := by
  unfold EvalString.evaluate
  by_cases hp : es.parsed = []
  · rw [if_pos hp, if_pos hp, hp]
    exact ⟨rfl, rfl, fun _ hu => absurd hu not_mem_nil⟩
  · rw [if_neg hp, if_neg hp]
    exact tokens_outcome h

lemma lookupWithFallback_outcome {fuel : Nat} {G : GoString → Prop} (hb : st.builtin e b v = none)
    (h : ∀ u, st.Refers e b v u →
      LookupOutcome s (st.refValue e b fuel u) (G u) short (st.edgeLookup e b fuel u s)) :
    LookupOutcome s (st.refValue e b (fuel + 1) v) (∀ u, st.Refers e b v u → G u) short
      (st.lookupWithFallback e (st.edgeLookup e b fuel) v ((st.edgeRule e).bindings v) s) := by
  cases hown : st.binding (st.world.edges e).scope v with
  | some value =>
    have href : st.refValue e b (fuel + 1) v = some value := by
      rw [refValue]
      simp only [hb, hown]
    unfold lookupWithFallback
    rw [hown, href]
    exact ⟨rfl, rfl, fun u hu => absurd (hown.symm.trans hu.2.1) (by simp)⟩
  | none =>
    cases hrule : (st.edgeRule e).bindings v with
    | some es =>
      have href : st.refValue e b (fuel + 1) v = es.evaluate (st.refValue e b fuel) := by
        rw [refValue]
        simp only [hb, hown, hrule]
      unfold lookupWithFallback
      rw [hown, href]
      refine (evaluate_outcome fun u hu => h u ⟨hb, hown, es, hrule, hu⟩).congr ?_ id
      constructor
      · rintro hall u ⟨-, -, es', hes', hu⟩
        obtain rfl : es = es' := Option.some.inj (hrule.symm.trans hes')
        exact hall u hu
      · exact fun hall u hu => hall u ⟨hb, hown, es, hrule, hu⟩
    | none =>
      have href : st.refValue e b (fuel + 1) v =
          some (((st.world.edges e).parents.findSome? fun s => st.binding s v).getD []) := by
        rw [refValue]
        simp only [hb, hown, hrule]
      unfold lookupWithFallback
      rw [hown, href]
      refine ⟨rfl, rfl, fun u hu => ?_⟩
      obtain ⟨-, -, es, hes, -⟩ := hu
      exact absurd (hrule.symm.trans hes) (by simp)

lemma LookupOutcome.pop {env : EdgeEnv} (h : LookupOutcome (st.pushed e v env) ref good short r) :
    LookupOutcome { env with isRecursive := true } ref good short (st.popResult e v env r) := by
  cases r with
  | ok value env₁ =>
    obtain ⟨rfl, href, hgood⟩ := h
    exact ⟨popped_pushed env, href, hgood⟩
  | error f env₁ => cases f <;> exact h

end Outcome

/-- A variable may be looked up while those on the stack are being expanded. -/
def MayFollow (st : State) (e : EdgeId) (b : Bool) (l : List GoString) (v : GoString) : Prop :=
  (st.builtin e b v).isSome = true ∨ (∀ u ∈ l, u < v) ∧ st.OrderedFrom e b v

lemma mayFollow_push (hlt : ∀ u ∈ l, u < v) :
    (∀ u, st.Refers e b v u → st.MayFollow e b (l ++ [v]) u) ↔ st.OrderedFrom e b v := by
  rw [orderedFrom_iff]
  refine forall₂_congr fun u _ => or_congr_right (and_congr_left fun _ => ?_)
  constructor
  · exact fun h => h v (by simp)
  · intro hvu x hx
    rcases mem_append.mp hx with hx | hx
    · exact List.lt_trans (hlt x hx) hvu
    · exact mem_singleton.mp hx ▸ hvu

lemma mayFollow_nil : (∀ u, st.Refers e b v u → st.MayFollow e b [] u) ↔ st.OrderedBelow e b v := by
  rw [orderedBelow_iff]
  refine forall₂_congr fun u _ => ⟨fun h => ?_, fun h => .inr ⟨by simp, h⟩⟩
  rcases h with hbuiltin | ⟨-, hordered⟩
  · exact orderedFrom_of_not_refers fun _ => not_refers_of_builtin hbuiltin
  · exact hordered

/-- A lookup inside of another one. The stack is sorted, and its variables are bound by the rule, so
that it cannot become longer than the rule has variables. -/
lemma edgeLookup_outcome {S : Finset GoString}
    (hS : ∀ u, ((st.edgeRule e).bindings u).isSome = true → u ∈ S) (fuel : Nat) {l : List GoString}
    (hl : l.Pairwise (· < ·)) (hsub : ∀ u ∈ l, u ∈ S) :
    LookupOutcome ⟨l, true⟩ (st.refValue e b fuel v) (st.MayFollow e b l v)
      (fuel + l.length ≤ S.card) (st.edgeLookup e b fuel v ⟨l, true⟩) := by
  induction fuel generalizing v l with
  | zero =>
    have hnodup : l.Nodup := by
      refine hl.imp ?_
      rintro u _ hlt rfl
      exact List.lt_irrefl u hlt
    change 0 + l.length ≤ S.card
    rw [Nat.zero_add, ← toFinset_card_of_nodup hnodup]
    exact Finset.card_le_card fun u hu => hsub u (mem_toFinset.mp hu)
  | succ fuel ih =>
    cases hb : st.builtin e b v with
    | some value =>
      have href : st.refValue e b (fuel + 1) v = some value := by
        rw [refValue]
        simp only [hb]
      rw [edgeLookup, hb, href]
      exact ⟨rfl, rfl, .inl (by rw [hb]; rfl)⟩
    | none =>
      rw [edgeLookup_succ hb]
      split
      next hcycle =>
        rintro (hbuiltin | ⟨hlt, -⟩)
        · rw [hb] at hbuiltin
          cases hbuiltin
        · exact hcycle.2 (searchStrings_of_forall_lt hlt)
      next hpass =>
        have hsearch : searchStrings l v = l.length := by
          by_contra hne
          exact hpass ⟨rfl, hne⟩
        have hlt : ∀ u ∈ l, u < v := forall_lt_of_searchStrings (l := []) hl hsearch
        have hgood : (∀ u, st.Refers e b v u → st.MayFollow e b (l ++ [v]) u) ↔
            st.MayFollow e b l v := by
          rw [mayFollow_push hlt, MayFollow, hb]
          exact ⟨fun h => .inr ⟨hlt, h⟩, fun h => (h.resolve_left Bool.false_ne_true).2⟩
        refine LookupOutcome.congr
          (LookupOutcome.pop (lookupWithFallback_outcome hb fun u hu => ?_)) hgood id
        -- the variable goes on the stack, since the rule binds it
        have hbound : ((st.edgeRule e).bindings v).isSome = true := by
          obtain ⟨-, -, es, hes, -⟩ := hu
          rw [hes]
          rfl
        have hpushed : st.pushed e v ⟨l, true⟩ = ⟨l ++ [v], true⟩ := by
          simp [pushed, hbound]
        rw [hpushed]
        refine (ih (Pairwise.push hl hlt) fun x hx => ?_).congr Iff.rfl fun hshort => ?_
        · rcases mem_append.mp hx with hx | hx
          · exact hsub x hx
          · exact hS x (mem_singleton.mp hx ▸ hbound)
        · rw [length_append, length_singleton] at hshort
          omega

/-! ### The whole expansion -/

lemma evaluate_mono {f g : GoString → Option GoString} {text : GoString}
    (h : ∀ u value, f u = some value → g u = some value) (hes : es.evaluate f = some text) :
    es.evaluate g = some text := by
  have htokens : ∀ ts text, EvalString.evaluate.tokens f ts = some text →
      EvalString.evaluate.tokens g ts = some text := by
    intro ts
    induction ts with
    | nil => exact fun _ h => h
    | cons token ts ih =>
      intro text hts
      cases token with
      | raw t =>
        obtain ⟨rest, hrest, htext⟩ := Option.bind_eq_some_iff.mp hts
        exact Option.bind_eq_some_iff.mpr ⟨rest, ih _ hrest, htext⟩
      | special name =>
        obtain ⟨value, hvalue, hts⟩ := Option.bind_eq_some_iff.mp hts
        obtain ⟨rest, hrest, htext⟩ := Option.bind_eq_some_iff.mp hts
        exact Option.bind_eq_some_iff.mpr
          ⟨value, h _ _ hvalue, Option.bind_eq_some_iff.mpr ⟨rest, ih _ hrest, htext⟩⟩
  unfold EvalString.evaluate at hes ⊢
  split at hes
  next hp =>
    rw [if_pos hp]
    exact hes
  next hp =>
    rw [if_neg hp]
    exact htokens _ _ hes

lemma refValue_succ (h : st.refValue e b fuel v = some value) :
    st.refValue e b (fuel + 1) v = some value := by
  induction fuel generalizing v value with
  | zero => cases h
  | succ fuel ih =>
    rw [refValue] at h ⊢
    cases hb : st.builtin e b v with
    | some value =>
      simp only [hb] at h ⊢
      exact h
    | none =>
      simp only [hb] at h ⊢
      cases hown : st.binding (st.world.edges e).scope v with
      | some value =>
        simp only [hown] at h ⊢
        exact h
      | none =>
        cases hrule : (st.edgeRule e).bindings v with
        | some es =>
          simp only [hown, hrule] at h ⊢
          exact evaluate_mono (fun _ _ => ih) h
        | none =>
          simp only [hown, hrule] at h ⊢
          exact h

lemma refValue_le {fuel fuel' : Nat} {value : GoString} (hle : fuel ≤ fuel')
    (h : st.refValue e b fuel v = some value) : st.refValue e b fuel' v = some value := by
  induction hle with
  | refl => exact h
  | step _ ih => exact refValue_succ ih

/-- With fuel for all variables of the rule, a lookup returns what it should if the variables are in
order, and calls `util.Fatal` otherwise. -/
lemma edgeLookup_first (hS : ∀ u, ((st.edgeRule e).bindings u).isSome = true → u ∈ S)
    (hfuel : S.card < fuel) :
    (st.OrderedBelow e b v → ∃ value env', st.edgeLookup e b (fuel + 1) v {} = .ok value env' ∧
      st.refValue e b (fuel + 1) v = some value) ∧
    (¬ st.OrderedBelow e b v → ∃ msg env',
      st.edgeLookup e b (fuel + 1) v {} = .error (.fatal msg) env') := by
  cases hb : st.builtin e b v with
  | some value =>
    refine ⟨fun _ => ⟨value, {}, ?_, ?_⟩, fun h => absurd (orderedBelow_iff.mpr fun u hu => ?_) h⟩
    · rw [edgeLookup, hb]
      rfl
    · rw [refValue]
      simp only [hb]
    · exact absurd hu (not_refers_of_builtin (by rw [hb]; rfl))
  | none =>
    have houtcome : LookupOutcome ⟨[], true⟩ (st.refValue e b (fuel + 1) v) (st.OrderedBelow e b v)
        (fuel + 0 ≤ S.card) (st.edgeLookup e b (fuel + 1) v {}) := by
      rw [edgeLookup_succ hb, if_neg fun h => Bool.false_ne_true h.1]
      refine LookupOutcome.congr (LookupOutcome.pop (lookupWithFallback_outcome hb fun u hu => ?_))
        mayFollow_nil id
      exact edgeLookup_outcome hS fuel .nil fun _ h => absurd h not_mem_nil
    cases hr : st.edgeLookup e b (fuel + 1) v {} with
    | ok value env' =>
      rw [hr] at houtcome
      exact ⟨fun _ => ⟨value, env', rfl, houtcome.2.1⟩, fun h => absurd houtcome.2.2 h⟩
    | error f env' =>
      rw [hr] at houtcome
      cases f with
      | fatal msg => exact ⟨fun h => absurd h houtcome, fun _ => ⟨msg, env', rfl⟩⟩
      | outOfFuel => exact absurd hfuel (Nat.not_lt.mpr houtcome)
      | error _ => exact houtcome.elim
      | panic _ => exact houtcome.elim

lemma eventually_edgeLookup (hfinite : {u | ((st.edgeRule e).bindings u).isSome = true}.Finite) :
    ∀ᶠ fuel in atTop,
      (st.OrderedBelow e b v → ∃ value env', st.edgeLookup e b fuel v {} = .ok value env' ∧
        st.refValue e b fuel v = some value) ∧
      (¬ st.OrderedBelow e b v → ∃ msg env',
        st.edgeLookup e b fuel v {} = .error (.fatal msg) env') := by
  refine eventually_atTop.mpr ⟨hfinite.toFinset.card + 2, fun fuel hfuel => ?_⟩
  obtain ⟨fuel, rfl⟩ : ∃ k, fuel = k + 1 := ⟨fuel - 1, by omega⟩
  exact edgeLookup_first (fun u hu => hfinite.mem_toFinset.mpr hu) (by omega)

/-- The expansion of a variable is as the reference says: it ends; without a self-reference it gives
the value of the reference; and it calls `util.Fatal` exactly when there is one. -/
structure ExpandsRight (st : State) (e : EdgeId) (b : Bool) (v : GoString) : Prop where
  ends : ∀ᶠ fuel in atTop, ∀ env', st.edgeLookup e b fuel v {} ≠ .error .outOfFuel env'
  value : ¬ st.SelfReference e b v → ∃ value, ∀ᶠ fuel in atTop,
    st.refValue e b fuel v = some value ∧ ∃ env', st.edgeLookup e b fuel v {} = .ok value env'
  fatal : (∀ᶠ fuel in atTop, ∃ msg env', st.edgeLookup e b fuel v {} = .error (.fatal msg) env') ↔
    st.SelfReference e b v

/-- **Rule variables.** For a rule with finitely many bindings, the expansion of a variable is right
if and only if there is a self-reference, or all variables that are expanded from the rule, the
first one apart, refer to greater ones only. -/
theorem expandsRight_iff (st : State) (e : EdgeId) (b : Bool) (v : GoString)
    (hfinite : {u | ((st.edgeRule e).bindings u).isSome = true}.Finite) :
    st.ExpandsRight e b v ↔ st.SelfReference e b v ∨ st.OrderedBelow e b v := by
  have hfirst := eventually_edgeLookup (b := b) (v := v) hfinite
  constructor
  · intro h
    by_contra hnot
    obtain ⟨hself, horder⟩ := not_or.mp hnot
    obtain ⟨value, hvalue⟩ := h.value hself
    obtain ⟨fuel, ⟨-, env', hok⟩, -, hfatal⟩ := (hvalue.and hfirst).exists
    obtain ⟨msg, env'', herror⟩ := hfatal horder
    rw [hok] at herror
    cases herror
  · intro h
    by_cases horder : st.OrderedBelow e b v
    · have hself := horder.not_selfReference
      refine ⟨hfirst.mono fun fuel hfuel env' => ?_, fun _ => ?_, fun hfatal => ?_,
        fun h => absurd h hself⟩
      · obtain ⟨value, env'', hok, -⟩ := hfuel.1 horder
        rw [hok]
        nofun
      · obtain ⟨k, hk⟩ := eventually_atTop.mp hfirst
        obtain ⟨value, -, -, hvalue⟩ := (hk k le_rfl).1 horder
        refine ⟨value, eventually_atTop.mpr ⟨k, fun fuel hfuel => ?_⟩⟩
        obtain ⟨value', env', hok, hvalue'⟩ := (hk fuel hfuel).1 horder
        have hsame := refValue_le hfuel hvalue
        obtain rfl : value' = value := Option.some.inj (hvalue'.symm.trans hsame)
        exact ⟨hvalue', env', hok⟩
      · obtain ⟨fuel, ⟨msg, env', herror⟩, hok, -⟩ := (hfatal.and hfirst).exists
        obtain ⟨value, env'', hok, -⟩ := hok horder
        rw [hok] at herror
        cases herror
    · have hself := h.resolve_right horder
      refine ⟨hfirst.mono fun fuel hfuel env' => ?_, fun hnot => absurd hself hnot,
        fun _ => hself, fun _ => hfirst.mono fun fuel hfuel => hfuel.2 horder⟩
      obtain ⟨msg, env'', herror⟩ := hfuel.2 horder
      rw [herror]
      nofun

def describing (u : GoString) : State where
  edgeRule _ := { bindings := fun v =>
    if v = "command" then some { parsed := [.special "description"] }
    else if v = "description" then some { parsed := [.special u] }
    else none }

section Describing

variable {u x y : GoString}

lemma describing_refers (h : (describing u).Refers 0 true x y) :
    x = "command" ∧ y = "description" ∨
      x = "description" ∧ y = u := by
  obtain ⟨-, -, es, hes, hy⟩ := h
  simp only [describing] at hes
  split at hes
  next hx =>
    cases hes
    exact .inl ⟨hx, by simpa using hy⟩
  next =>
    split at hes
    next hx =>
      cases hes
      exact .inr ⟨hx, by simpa using hy⟩
    next => cases hes

lemma describing_finite (u : GoString) :
    {v | (((describing u).edgeRule 0).bindings v).isSome = true}.Finite := by
  refine Set.Finite.subset (Set.toFinite {("command" : GoString), ("description" : GoString)}) ?_
  intro v hv
  simp only [describing, Set.mem_ofPred_eq] at hv
  by_cases hcommand : v = "command"
  · exact .inl hcommand
  · by_cases hdescription : v = "description"
    · exact .inr hdescription
    · rw [if_neg hcommand, if_neg hdescription] at hv
      cases hv

def fatalWith (msg : GoString) : EStateM.Result Failure EdgeEnv GoString → Bool
  | .error (.fatal msg') _ => msg' = msg
  | _ => false

lemma fatalWith_iff {msg : GoString} :
    fatalWith msg r = true ↔ ∃ env', r = .error (.fatal msg) env' := by
  rcases r with _ | ⟨_ | _ | _ | _, _⟩ <;> simp [fatalWith]

end Describing

/-- The description refers to `flags`, which is greater. -/
theorem expandsRight_describing_flags : (describing "flags").ExpandsRight 0 true "command" := by
  refine (expandsRight_iff _ _ _ _ (describing_finite _)).mpr (.inr fun u x hu hux _ => ?_)
  obtain ⟨y, -, hyu⟩ := TransGen.tail'_iff.mp hu
  rcases describing_refers hux with ⟨rfl, -⟩ | ⟨rfl, rfl⟩
  · rcases describing_refers hyu with ⟨-, h⟩ | ⟨-, h⟩
    · exact absurd h (by decide +kernel)
    · exact absurd h (by decide +kernel)
  · decide +kernel

/-- The description refers to `cflags`, which is less. There is no self-reference, but the expansion
of the command ends with `util.Fatal`. -/
theorem expandsRight_fails_describing_cflags :
    ¬ (describing "cflags").SelfReference 0 true "command" ∧
      (∃ env', (describing "cflags").edgeLookup 0 true 4 "command" {} =
        .error (.fatal "cycle in rule variables: description -> cflags") env') ∧
      ¬ (describing "cflags").ExpandsRight 0 true "command" := by
  let rank : GoString → Nat := fun v =>
    if v = "command" then 0 else if v = "description" then 1 else 2
  have hrank : ∀ x y, TransGen ((describing "cflags").Refers 0 true) x y → rank x < rank y := by
    have hstep : ∀ x y, (describing "cflags").Refers 0 true x y → rank x < rank y := by
      intro x y h
      rcases describing_refers h with ⟨rfl, rfl⟩ | ⟨rfl, rfl⟩ <;> decide +kernel
    intro x y h
    induction h with
    | single h => exact hstep _ _ h
    | tail _ h ih => exact ih.trans (hstep _ _ h)
  have hself : ¬ (describing "cflags").SelfReference 0 true "command" := by
    rintro ⟨u, -, huu⟩
    exact Nat.lt_irrefl _ (hrank u u huu)
  have horder : ¬ (describing "cflags").OrderedBelow 0 true "command" := by
    intro h
    have hcommand : (describing "cflags").Refers 0 true "command" "description" :=
      ⟨by decide +kernel, by decide +kernel, { parsed := [.special "description"] },
        by decide +kernel, mem_singleton.mpr rfl⟩
    have hdescription : (describing "cflags").Refers 0 true "description" "cflags" :=
      ⟨by decide +kernel, by decide +kernel, { parsed := [.special "cflags"] },
        by decide +kernel, mem_singleton.mpr rfl⟩
    exact absurd (h _ _ (.single hcommand) hdescription (by decide +kernel)) (by decide +kernel)
  have heval : fatalWith "cycle in rule variables: description -> cflags"
      ((describing "cflags").edgeLookup 0 true 4 "command" {}) = true := by
    decide +kernel
  refine ⟨hself, ?_, fun h => hself (h.fatal.mp ?_)⟩
  · exact fatalWith_iff.mp heval
  · exact (eventually_edgeLookup (describing_finite _)).mono fun _ h => h.2 horder

end State

end Reninja
