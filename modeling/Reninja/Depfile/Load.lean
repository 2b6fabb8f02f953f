import Reninja.Depfile.Agree
import Reninja.Scan.Open

/-!
# Loading the depfile of an edge

`LoadDepFile` is to load a depfile that lists outputs of the edge, its first output first, and to
reject one that lists others. It compares every listed output, as it is spelled, with the first
output of the edge, and takes for granted that there is one.
-/

namespace Reninja

open Program

namespace Depfile

/-- The parser as the loader uses it. It always ends (`parse_done`), so the last case is none. -/
def parseDepfile (content : GoString) : Except GoString (List GoString × List GoString) :=
  match parse content with
  | .done names none => .ok (names.outs, names.ins)
  | .done _ (some err) => .error err
  | .next _ | .panic => .error []

/-- What is to be done with a depfile. -/
inductive Verdict where
  | notLoaded
  | rejected
  | loaded (dependencies : List Path)
  deriving DecidableEq, Repr

def verdict (canonicalizePath : GoString → Path) (outputs : List Path) (content : GoString) :
    Verdict :=
  if content = [] then
    .notLoaded
  else
    match parseDepfile content with
    | .error _ => .rejected
    | .ok (outs, ins) =>
      if (outs.map canonicalizePath).head? ≠ outputs.head? then .notLoaded
      else if outs.any fun o => canonicalizePath o ∉ outputs then .rejected
      else .loaded (ins.map canonicalizePath)

/-- The depfile is one that the loader treats as it should: it is empty or not a depfile, or lists
an output, and its first output is not the edge's first one, or it lists nothing but that output in
its spelling, or it lists a file that the edge does not make. -/
def Treatable (canonicalizePath : GoString → Path) (outputs : List Path) (content : GoString) :
    Prop :=
  content = [] ∨ (∃ err, parseDepfile content = .error err) ∨
    ∃ primaryOut outs ins, parseDepfile content = .ok (primaryOut :: outs, ins) ∧
      (some (canonicalizePath primaryOut) ≠ outputs.head? ∨
        (∀ o ∈ primaryOut :: outs, some o = outputs.head?) ∨
        ∃ o ∈ primaryOut :: outs, canonicalizePath o ∉ outputs)

end Depfile

/-! ### The loader -/

def Env.withParser (env : Env) : Env := { env with parseDepfile := Depfile.parseDepfile }

/-- The loader does what is to be done: nothing where the depfile is not loaded, an error where it
is rejected, and else its dependencies become implicit inputs of the edge. -/
def LoadsDepFile (env : Env) (w : World) (e : EdgeId) (path : Path) : Depfile.Verdict → Prop
  | .notLoaded => loadDepFile env e path w = .ok false w
  | .rejected => ∃ msg, loadDepFile env e path w = .error (.error msg) w
  | .loaded ins => ∃ w', loadDepFile env e path w = .ok true w' ∧
      w'.edges = (w.setEdge e fun d => { d with implicitInputs := d.implicitInputs ++ ins }).edges

section Load

variable {env : Env} {w : World} {e : EdgeId} {path out : Path} {outputs : List Path}
  {content : Option GoString}

lemma addImplicitInputs_edges (nodes : List Path) :
    ∃ w', addImplicitInputs e nodes w = .ok () w' ∧
      w'.edges =
        (w.setEdge e fun d => { d with implicitInputs := d.implicitInputs ++ nodes }).edges := by
  obtain ⟨w', hok, himplicit⟩ := addImplicitInputs_returns (e := e) (w := w) nodes
  have hloads : Loads e w w' := by
    have := addImplicitInputs_loads (e := e) (w := w) nodes
    rwa [Moves, hok] at this
  refine ⟨w', hok, funext fun f => ?_⟩
  by_cases hf : f = e
  · subst hf
    rw [hloads.edge, World.setEdge_edges_self, himplicit]
  · rw [hloads.edges f hf, World.setEdge_edges_ne _ hf]

lemma loadDepFile_empty (houts : (w.edges e).outputs = out :: outputs)
    (hread : w.disk.readFile path = .ok content) (hcontent : content.getD [] = []) :
    loadDepFile env e path w = .ok false w := by
  simp only [loadDepFile, bind_apply, get_apply, firstOutput, getEdge_apply, hread, orError,
    pure_apply, houts, hcontent]

lemma loadDepFile_parsed (houts : (w.edges e).outputs = out :: outputs)
    (hread : w.disk.readFile path = .ok content) (hcontent : content.getD [] ≠ []) :
    loadDepFile env e path w =
      match env.parseDepfile (content.getD []) with
      | .error err => .error (.error (path ++ ": " ++ err)) w
      | .ok ([], _) => .error (.panic "index out of range [0] with length 0") w
      | .ok (primaryOut :: outs, ins) =>
        if out ≠ env.canonicalizePath primaryOut then
          .ok false w
        else
          match (primaryOut :: outs).find? (· ≠ out) with
          | some o => .error (.error (path ++ ": depfile mentions '" ++ o ++
              "' as an output, but no such output was declared")) w
          | none =>
            (do addImplicitInputs e (ins.map env.canonicalizePath); pure true : M Bool) w := by
  obtain ⟨c, cs, hcons⟩ := List.exists_cons_of_ne_nil hcontent
  simp only [loadDepFile, bind_apply, get_apply, firstOutput, getEdge_apply, hread, orError,
    pure_apply, houts, hcons]
  cases env.parseDepfile (c :: cs) with
  | error err => rfl
  | ok r =>
    obtain ⟨_ | ⟨primaryOut, outs⟩, ins⟩ := r
    · rfl
    · dsimp only
      split
      · rfl
      · cases (primaryOut :: outs).find? (· ≠ out) <;> rfl

variable (outputs) in
lemma loadsDepFile_listed {primaryOut : GoString} {outs ins : List GoString}
    (hload : loadDepFile env e path w =
      match (primaryOut :: outs).find? (· ≠ out) with
      | some o => .error (.error (path ++ ": depfile mentions '" ++ o ++
          "' as an output, but no such output was declared")) w
      | none => (do addImplicitInputs e (ins.map env.canonicalizePath); pure true : M Bool) w)
    (hfirst : env.canonicalizePath primaryOut = out) :
    LoadsDepFile env w e path
        (if (primaryOut :: outs).any fun o => env.canonicalizePath o ∉ out :: outputs then .rejected
          else .loaded (ins.map env.canonicalizePath)) ↔
      (∀ o ∈ primaryOut :: outs, o = out) ∨
        ∃ o ∈ primaryOut :: outs, env.canonicalizePath o ∉ out :: outputs := by
  have hany : ((primaryOut :: outs).any fun o => env.canonicalizePath o ∉ out :: outputs) = true ↔
      ∃ o ∈ primaryOut :: outs, env.canonicalizePath o ∉ out :: outputs := by
    rw [List.any_eq_true]
    simp only [decide_eq_true_eq]
  by_cases hspelled : ∀ o ∈ primaryOut :: outs, o = out
  · -- Every listed output is the first output, which is canonical.
    have hnone : (primaryOut :: outs).find? (· ≠ out) = none := by
      simpa using hspelled
    have hcanonical : ¬ ∃ o ∈ primaryOut :: outs, env.canonicalizePath o ∉ out :: outputs := by
      rintro ⟨o, ho, hnot⟩
      have hsame : o = primaryOut :=
        (hspelled o ho).trans (hspelled primaryOut List.mem_cons_self).symm
      rw [hsame, hfirst] at hnot
      exact hnot List.mem_cons_self
    obtain ⟨w', hw', hedges⟩ :=
      addImplicitInputs_edges (e := e) (w := w) (ins.map env.canonicalizePath)
    rw [if_neg (mt hany.mp hcanonical)]
    rw [hnone] at hload
    refine iff_of_true ⟨w', ?_, hedges⟩ (.inl hspelled)
    simp only [hload, bind_apply, hw', pure_apply]
  · obtain ⟨o, ho⟩ : ∃ o, (primaryOut :: outs).find? (· ≠ out) = some o := by
      rw [← Option.isSome_iff_exists, List.find?_isSome]
      simpa only [not_forall, exists_prop, decide_eq_true_eq] using hspelled
    rw [ho] at hload
    by_cases hother : ∃ o ∈ primaryOut :: outs, env.canonicalizePath o ∉ out :: outputs
    · rw [if_pos (hany.mpr hother)]
      exact iff_of_true ⟨_, hload⟩ (.inr hother)
    · rw [if_neg (mt hany.mp hother)]
      refine iff_of_false ?_ (not_or.mpr ⟨hspelled, hother⟩)
      rintro ⟨w', hw', -⟩
      rw [hload] at hw'
      cases hw'

end Load

/-- For every edge with an output and every content of its depfile, the loader does what is to be
done with it exactly if the content is one that it can treat. -/
theorem loadDepFile_right_iff (env : Env) (w : World) (e : EdgeId) (path : Path)
    (content : Option GoString) (houts : (w.edges e).outputs ≠ [])
    (hread : w.disk.readFile path = .ok content) :
    LoadsDepFile env.withParser w e path
        (Depfile.verdict env.canonicalizePath (w.edges e).outputs (content.getD [])) ↔
      Depfile.Treatable env.canonicalizePath (w.edges e).outputs (content.getD []) := by
  obtain ⟨out, outputs, houts⟩ := List.exists_cons_of_ne_nil houts
  by_cases hcontent : content.getD [] = []
  · rw [Depfile.verdict, if_pos hcontent]
    exact iff_of_true (loadDepFile_empty houts hread hcontent) (.inl hcontent)
  · have hload : loadDepFile env.withParser e path w = _ :=
      loadDepFile_parsed houts hread hcontent
    have hparser : env.withParser.parseDepfile = Depfile.parseDepfile := rfl
    have hcanonical : env.withParser.canonicalizePath = env.canonicalizePath := rfl
    rw [Depfile.verdict, if_neg hcontent, Depfile.Treatable, or_iff_right hcontent, houts]
    rw [hparser, hcanonical] at hload
    cases hparse : Depfile.parseDepfile (content.getD []) with
    | error err =>
      rw [hparse] at hload
      exact iff_of_true ⟨_, hload⟩ (.inl ⟨err, rfl⟩)
    | ok r =>
      rw [hparse] at hload
      obtain ⟨_ | ⟨primaryOut, outs⟩, ins⟩ := r
      · -- No output is listed, and the loader reads the first one.
        refine iff_of_false ?_ (by simp)
        intro h
        cases hload.symm.trans h
      · have hok : ∀ P : GoString → List GoString → Prop,
            ((∃ err, Except.ok (ε := GoString) (primaryOut :: outs, ins) = .error err) ∨
              ∃ p os is, Except.ok (ε := GoString) (primaryOut :: outs, ins) = .ok (p :: os, is) ∧
                P p os) ↔ P primaryOut outs := by
          intro P
          simp
        dsimp only at hload ⊢
        rw [hok]
        by_cases hfirst : env.canonicalizePath primaryOut = out
        · rw [if_neg (not_not.mpr hfirst.symm)] at hload
          have hlisted := loadsDepFile_listed outputs hload hfirst
          rw [if_neg (by simpa using hfirst)]
          simp only [List.head?_cons, Option.some.injEq, hfirst, ne_eq, not_true, false_or]
          exact hlisted
        · rw [if_pos (Ne.symm hfirst)] at hload
          rw [if_pos (by simpa using hfirst)]
          exact iff_of_true hload (.inl (by simpa using hfirst))

/-- The edge makes `a` and `b`; its depfile is at `d`. -/
def twoOutputs (content : GoString) : World where
  edges _ := { outputs := [[97], [98]] }
  disk := { entries := fun p => if p = [100] then some (.file 1 content false) else none }

/-- The depfile `a: c` is loaded. -/
theorem loadDepFile_right_first :
    ((twoOutputs [97, 58, 32, 99]).edges 0).outputs ≠ [] ∧
      LoadsDepFile (Env.withParser {}) (twoOutputs [97, 58, 32, 99]) 0 [100] (.loaded [[99]]) :=
  ⟨by decide, (loadDepFile_right_iff {} (twoOutputs [97, 58, 32, 99]) 0 [100]
    (some [97, 58, 32, 99]) (by decide) rfl).mpr
      (.inr (.inr ⟨[97], [], [[99]], by decide, .inr (.inl (by decide))⟩))⟩

/-- The depfile `a b: c` names both outputs of the edge and is rejected; a depfile of one blank
names none, and the loader panics. -/
theorem loadDepFile_right_fails :
    ¬ LoadsDepFile (Env.withParser {}) (twoOutputs [97, 32, 98, 58, 32, 99]) 0 [100]
        (Depfile.verdict id [[97], [98]] [97, 32, 98, 58, 32, 99]) ∧
      ¬ LoadsDepFile (Env.withParser {}) (twoOutputs [32]) 0 [100]
        (Depfile.verdict id [[97], [98]] [32]) := by
  have hboth : Depfile.verdict id [[97], [98]] [97, 32, 98, 58, 32, 99] = .loaded [[99]] := by
    decide
  have hblank : Depfile.verdict id [[97], [98]] [32] = .notLoaded := by decide
  rw [hboth, hblank]
  constructor
  · rintro ⟨w', h, -⟩
    cases h
  · intro h
    cases h

end Reninja
