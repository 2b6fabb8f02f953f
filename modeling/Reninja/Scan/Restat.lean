import Reninja.Scan.Basic

/-!
# The `restat` binding in the scan

For an output of a `restat` edge the scan compares the time in the build log, and not that of the
file, with the newest input. It takes an edge for one when the binding is not empty. When a command
has finished, the binding must be true for that.
-/

namespace Reninja

open Program

section Outputs

variable {env : Env} {w : World} {e : EdgeId} {newest : Option Path} {command : GoString}

lemma recomputeOutputDirty_apply {o : Path}
    (hstill : (w.edges e).phony = true → (w.nodes o).exists = true) :
    recomputeOutputDirty env e newest command o w =
      .ok (outputDirty env w e newest command o) w := by
  have hskip : ¬ ((w.edges e).phony = true ∧ ¬ outputDirty env w e newest command o = true ∧
      ¬ (w.nodes o).exists = true) :=
    fun h => h.2.2 (hstill h.1)
  cases newest with
  | none => rfl
  | some i =>
    simp only [recomputeOutputDirty, bind_apply, get_apply, if_neg hskip]
    rfl

lemma anyDirty_apply {os : List Path}
    (hstill : (w.edges e).phony = true → ∀ o ∈ os, (w.nodes o).exists = true) :
    recomputeOutputsDirty.anyDirty env e newest command os w =
      .ok (os.any (outputDirty env w e newest command)) w := by
  induction os with
  | nil => rfl
  | cons o os ih =>
    rw [recomputeOutputsDirty.anyDirty, bind_apply,
      recomputeOutputDirty_apply fun h => hstill h o List.mem_cons_self, List.any_cons]
    cases outputDirty env w e newest command o with
    | true => rfl
    | false => exact ih fun h o ho => hstill h o (List.mem_cons_of_mem _ ho)

lemma recomputeOutputsDirty_apply
    (hstill : (w.edges e).phony = true → ∀ o ∈ (w.edges e).outputs, (w.nodes o).exists = true) :
    recomputeOutputsDirty env e newest w =
      .ok ((w.edges e).outputs.any (outputDirty env w e newest (w.evaluateCommand e true))) w := by
  rw [recomputeOutputsDirty, bind_apply, get_apply]
  exact anyDirty_apply hstill

lemma outputDirty_of_older {o : Path} (hphony : (w.edges e).phony = false)
    (hrestat : w.getBinding e .restat = []) (hold : olderThan w newest (w.nodes o).mtime = true) :
    outputDirty env w e newest command o = true := by
  rw [outputDirty]
  simp [hphony, hrestat, hold]

end Outputs

def FalseText (value : GoString) : Prop :=
  value = "0" ∨ value.map World.getBindingBool.toLower = "false"

lemma getBindingBool_eq_false {w : World} {e : EdgeId} {k : Key} :
    w.getBindingBool e k = false ↔ w.getBinding e k = [] ∨ FalseText (w.getBinding e k) := by
  simp only [World.getBindingBool, FalseText, Bool.and_eq_false_iff, decide_eq_false_iff_not,
    not_not, or_assoc]

/-- An edge that makes `o` from `i`. The file `o` is older than `i`, and the build log has the time
of `i` for it. -/
def staleRestat (value : GoString) : World where
  nodes n := if n = [105] then { mtime := 7, existence := .present } else
    { mtime := 5, existence := .present, inEdge := some 0 }
  edges _ :=
    { rule := fun k => if k = .restat then some value else none
      explicitInputs := [[105]]
      outputs := [[111]] }
  edgeCount := 1
  buildLog := some fun _ => some ⟨7, 0⟩

lemma staleRestat_clean {value : GoString} (h : value ≠ []) :
    recomputeOutputsDirty {} 0 (some [105]) (staleRestat value) =
      .ok false (staleRestat value) := by
  have hrestat : (staleRestat value).getBinding 0 .restat = value := rfl
  have hphony : ((staleRestat value).edges 0).phony = false := rfl
  have hdirty : ∀ command, outputDirty {} (staleRestat value) 0 (some [105]) command [111] =
      false := by
    intro command
    have hexists : ((staleRestat value).nodes [111]).exists = true := rfl
    have hlog : (staleRestat value).buildLog = some fun _ => some ⟨7, 0⟩ := rfl
    simp only [outputDirty, hphony, hexists, hrestat, hlog]
    simp [h, olderThan, staleRestat]
  rw [recomputeOutputsDirty_apply (by simp [hphony])]
  have houtputs : ((staleRestat value).edges 0).outputs = [[111]] := rfl
  rw [houtputs, List.any_cons, List.any_nil, hdirty, Bool.or_self]

/-- **Restat edges.** For a value of the `restat` binding, every non-phony edge that has it, and for
which it is not true, is dirty whenever one of its outputs is older than its newest input, if and
only if the value is not one of the texts that are false without being empty. -/
theorem restat_agrees_iff (value : GoString) :
    (∀ (env : Env) (w : World) (e : EdgeId) (o : Path), w.getBinding e .restat = value →
      (w.edges e).phony = false → w.getBindingBool e .restat = false → o ∈ (w.edges e).outputs →
      olderThan w (mostRecent w (w.edges e).nonOrderOnlyInputs) (w.nodes o).mtime = true →
      ∃ w', recomputeOutputsDirty env e (mostRecent w (w.edges e).nonOrderOnlyInputs) w =
        .ok true w') ↔
    ¬ FalseText value := by
  constructor
  · intro hall hfalse
    have hne : value ≠ [] := by
      rintro rfl
      exact absurd hfalse (by rw [FalseText]; decide +kernel)
    have hbool : (staleRestat value).getBindingBool 0 .restat = false :=
      getBindingBool_eq_false.mpr (.inr hfalse)
    obtain ⟨w', hw'⟩ := hall {} (staleRestat value) 0 [111] rfl rfl hbool
      (List.mem_singleton.mpr rfl) rfl
    have hclean := staleRestat_clean hne
    change recomputeOutputsDirty {} 0 (some [105]) (staleRestat value) = _ at hw'
    rw [hclean] at hw'
    cases hw'
  · intro hvalue env w e o hrestat hphony hbool ho hold
    have hempty : w.getBinding e .restat = [] := by
      rcases getBindingBool_eq_false.mp hbool with h | h
      · exact h
      · rw [hrestat] at h
        exact absurd h hvalue
    refine ⟨w, ?_⟩
    rw [recomputeOutputsDirty_apply (by simp [hphony]), List.any_eq_true.mpr]
    exact ⟨o, ho, outputDirty_of_older hphony hempty hold⟩

/-- With `restat = 0`, an edge whose output is older than its newest input is clean. -/
theorem restat_zero_clean : ∃ newest,
    newest = mostRecent (staleRestat "0") ((staleRestat "0").edges 0).nonOrderOnlyInputs ∧
      (staleRestat "0").getBindingBool 0 .restat = false ∧
      olderThan (staleRestat "0") newest ((staleRestat "0").nodes [111]).mtime = true ∧
      recomputeOutputsDirty {} 0 newest (staleRestat "0") = .ok false (staleRestat "0") := by
  refine ⟨some [105], rfl, getBindingBool_eq_false.mpr (.inr (.inl rfl)), rfl,
    staleRestat_clean ?_⟩
  decide +kernel

end Reninja
