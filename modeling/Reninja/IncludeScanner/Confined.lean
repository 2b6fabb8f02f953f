import Mathlib.Data.List.Infix
import Reninja.IncludeScanner.Command

/-!
# Candidates inside the project

When the paths that are found in a command are in the project. Paths that are made absolute are
cleaned before they are compared with the root. Those that are absolute in the command are not, and
stay in the project when what follows the root in the command does not lead out of it.
-/

namespace Reninja.Filepath

open List

variable {p : GoString}
variable {cs : List GoString} {root : GoString}

/-! ### Where a path leads -/

/-- One component of a path, from a place in the tree of directories. -/
def stepTo (place : List GoString) (c : GoString) : List GoString :=
  if c = [] ∨ c = dot then place else if c = dotDot then place.dropLast else place ++ [c]

/-- The place that a path leads to, as the names of the directories on the way to it. -/
def placeOf (p : GoString) : List GoString := (p.splitOn sep).foldl stepTo []

def Inside (root p : GoString) : Prop := clean p = root ∨ root ++ [sep] <+: clean p

lemma pushComponent_eq_stepTo {out : List GoString} {c : GoString} (hout : ∀ d ∈ out, IsName d) :
    pushComponent true out c = stepTo out c := by
  rw [pushComponent, stepTo]
  split
  · rfl
  · split
    · cases hlast : out.getLast? with
      | none => simp [getLast?_eq_none_iff.mp hlast]
      | some l =>
        have hne : l ≠ dotDot := (hout l (mem_of_getLast? hlast)).2.2.2
        simp only [if_neg hne]
    · rfl

/-- Cleaning an absolute path keeps the place that it leads to. -/
lemma components_eq_placeOf (h : isAbs p = true) : components p = placeOf p := by
  rw [components, h]
  refine (foldl_rel (r := fun out place => out = place ∧ ∀ d ∈ out, IsName d)
    ⟨rfl, by simp⟩ ?_).1
  rintro c hc out _ ⟨rfl, hout⟩
  exact ⟨pushComponent_eq_stepTo hout,
    pushComponent_isName hout (LineReader.notMem_of_mem_splitOn p hc)⟩

lemma clean_of_isAbs (h : isAbs p = true) : clean p = sep :: joinComponents (placeOf p) := by
  rw [clean, if_pos h, components_eq_placeOf h]

lemma isName_of_mem_placeOf (h : isAbs p = true) : ∀ c ∈ placeOf p, IsName c :=
  components_eq_placeOf h ▸ isName_of_mem_components h

/-- The names on the way to a clean absolute path are its components. -/
lemma placeOf_rooted (h : ∀ c ∈ cs, IsName c) : placeOf (sep :: joinComponents cs) = cs := by
  by_cases hcs : cs = []
  · subst hcs
    decide
  · have hjoin : sep :: joinComponents cs = joinComponents ([] :: cs) := by
      rw [joinComponents_cons hcs]
      rfl
    have hsep : ∀ c ∈ [] :: cs, sep ∉ c := by
      simpa using fun c hc => (h c hc).2.1
    have habs : isAbs (sep :: joinComponents cs) = true := rfl
    rw [← components_eq_placeOf habs, components, habs, hjoin,
      splitOn_joinComponents (by simp) hsep, foldl_cons]
    change cs.foldl (pushComponent true) [] = cs
    rw [foldl_pushComponent h, nil_append]

lemma isAbs_clean (h : isAbs p = true) : isAbs (clean p) = true := by
  rw [clean_of_isAbs h]
  rfl

lemma clean_clean (h : isAbs p = true) : clean (clean p) = clean p := by
  rw [clean_of_isAbs (isAbs_clean h), clean_of_isAbs h, placeOf_rooted (isName_of_mem_placeOf h)]

lemma rooted_under {as bs : List GoString} (has : as ≠ []) (h : as <+: bs) :
    sep :: joinComponents bs = sep :: joinComponents as ∨
      sep :: joinComponents as ++ [sep] <+: sep :: joinComponents bs := by
  obtain ⟨cs, rfl⟩ := h
  by_cases hcs : cs = []
  · subst hcs
    exact .inl (by rw [append_nil])
  · refine .inr ⟨joinComponents cs, ?_⟩
    rw [joinComponents_append has hcs]
    simp

/-- A clean absolute path other than the top directory. -/
structure IsRoot (root : GoString) : Prop where
  isAbs : isAbs root = true
  isClean : clean root = root
  ne_top : root ≠ [sep]

lemma IsRoot.eq (h : IsRoot root) : root = sep :: joinComponents (placeOf root) := by
  rw [← clean_of_isAbs h.isAbs, h.isClean]

lemma IsRoot.placeOf_ne_nil (h : IsRoot root) : placeOf root ≠ [] := by
  intro hnil
  have := h.eq
  rw [hnil] at this
  exact h.ne_top this

lemma inside_of_placeOf {root p : GoString} (hroot : IsRoot root) (hp : isAbs p = true)
    (h : placeOf root <+: placeOf p) : Inside root p := by
  rw [Inside, clean_of_isAbs hp]
  nth_rewrite 1 2 [hroot.eq]
  exact rooted_under hroot.placeOf_ne_nil h

/-- Whether some `..` leads above the directory from which the components start, when `depth` names
are still to be left. -/
def climbs : Nat → List GoString → Bool
  | _, [] => false
  | depth, c :: cs =>
    if c = [] ∨ c = dot then climbs depth cs
    else if c = dotDot then depth = 0 || climbs (depth - 1) cs
    else climbs (depth + 1) cs

/-- What may follow the root in a path: nothing, or components that do not leave the root. -/
def StaysBelow (rest : GoString) : Prop :=
  rest = [] ∨ [sep] <+: rest ∧ climbs 0 (rest.splitOn sep) = false

lemma foldl_stepTo_prefix {place names : List GoString} (h : climbs names.length cs = false) :
    place <+: cs.foldl stepTo (place ++ names) := by
  induction cs generalizing names with
  | nil => exact prefix_append place names
  | cons c cs ih =>
    rw [climbs] at h
    rw [foldl_cons, stepTo]
    split_ifs at h ⊢ with h₁ h₂
    · exact ih h
    · obtain ⟨hdepth, h⟩ := Bool.or_eq_false_iff.mp h
      have hnames : names ≠ [] := by
        rintro rfl
        simp at hdepth
      rw [dropLast_append_of_ne_nil hnames]
      exact ih (by rwa [length_dropLast])
    · rw [append_assoc]
      exact ih (by rwa [length_append])

/-- A path that goes on behind the root without leaving it is inside. -/
lemma inside_of_staysBelow {root rest : GoString} (hroot : IsRoot root) (h : StaysBelow rest) :
    Inside root (root ++ rest) := by
  have habs : isAbs (root ++ rest) = true := by
    rw [isAbs_append (by rintro rfl; cases hroot.isAbs), hroot.isAbs]
  refine inside_of_placeOf hroot habs ?_
  rcases h with rfl | ⟨⟨rest, rfl⟩, hclimbs⟩
  · rw [append_nil]
  · have hsplit : (root ++ sep :: rest).splitOn sep = root.splitOn sep ++ rest.splitOn sep :=
      splitOnP_append_cons root rest (by simp)
    have hrest : ([sep] ++ rest).splitOn sep = [] :: rest.splitOn sep :=
      splitOnP_append_cons [] rest (by simp)
    rw [hrest, climbs, if_pos (.inl rfl)] at hclimbs
    have hplace : placeOf (root ++ ([sep] ++ rest)) =
        (rest.splitOn sep).foldl stepTo (placeOf root ++ []) := by
      rw [append_nil, singleton_append]
      simp only [placeOf, hsplit, foldl_append]
    rw [hplace]
    exact foldl_stepTo_prefix hclimbs

end Reninja.Filepath

namespace Reninja.IncludeScanner

open Filepath

variable {root p : GoString}

lemma mem_dedup {l : List GoString} {p : GoString} : p ∈ dedup l ↔ p ∈ l := by
  have key : ∀ l seen : List GoString,
      p ∈ l.foldl (fun seen p => if p ∈ seen then seen else seen ++ [p]) seen ↔
        p ∈ seen ∨ p ∈ l := by
    intro l
    induction l with
    | nil => simp
    | cons q l ih =>
      intro seen
      rw [List.foldl_cons, ih, List.mem_cons]
      split
      next hq =>
        constructor
        · exact fun h => h.imp id .inr
        · rintro (h | rfl | h)
          · exact .inl h
          · exact .inl hq
          · exact .inr h
      next => simp [or_assoc]
  rw [dedup, key]
  simp

lemma starts_of_indexSuffix {sub s t : GoString} (h : indexSuffix sub s = some t) : sub <+: t := by
  induction s with
  | nil =>
    rw [indexSuffix] at h
    split at h
    next hsub =>
      subst hsub
      exact List.nil_prefix
    next => cases h
  | cons c s ih =>
    rw [indexSuffix] at h
    split at h
    next hsub =>
      cases h
      exact List.isPrefixOf_iff_prefix.mp hsub
    next => exact ih h

lemma trimRight_append {cutset s : GoString} (hs : trimRight cutset s = s) (t : GoString) :
    trimRight cutset (s ++ t) = s ++ trimRight cutset t := by
  have hlast : s.reverse.dropWhile (· ∈ cutset) = s.reverse := by
    simpa [trimRight] using congrArg List.reverse hs
  simp only [trimRight, List.reverse_append, List.dropWhile_append]
  split
  next hall =>
    rw [hlast, List.isEmpty_iff.mp hall]
    simp
  next => simp

lemma underRoot_iff : underRoot root p = true ↔ p = root ∨ root ++ [sep] <+: p := by
  rw [underRoot, Bool.or_eq_true, List.isPrefixOf_iff_prefix, decide_eq_true_eq, or_comm]

lemma inside_of_underRoot (h : underRoot root (clean p) = true) (hp : isAbs p = true) :
    Inside root (clean p) := by
  rw [Inside, clean_clean hp]
  exact underRoot_iff.mp h

lemma isAbs_cons_append {p q : GoString} (h : isAbs p = true) : isAbs (p ++ q) = true := by
  rw [isAbs_append (by rintro rfl; cases h), h]

lemma abs_eq_clean {wd : GoString} (hwd : isAbs wd = true) (path : GoString) :
    ∃ p, isAbs p = true ∧ abs wd path = clean p := by
  rw [abs]
  split
  next h => exact ⟨path, h, rfl⟩
  next => exact ⟨_, isAbs_cons_append hwd, if_pos (by rintro rfl; cases hwd)⟩

section Candidates

variable {shlexSplit : GoString → Option (List GoString)} {wd command root p : GoString}

lemma mem_extractCommandCandidatePaths :
    p ∈ extractCommandCandidatePaths command root ↔
      ∃ token ∈ fields command, rootedPart root token = some p := by
  rw [extractCommandCandidatePaths, mem_dedup, List.mem_filterMap]

lemma mem_extractSearchDirectoryCandidates :
    p ∈ extractSearchDirectoryCandidates shlexSplit wd command root ↔
      ∃ args, shlexSplit command = some args ∧ ∃ dir ∈ extractSearchPaths args,
        p = (if isAbs dir then dir else abs wd dir) ∧ underRoot root p = true := by
  rw [extractSearchDirectoryCandidates]
  cases shlexSplit command with
  | none => simp
  | some args =>
    simp only [mem_dedup, List.mem_filterMap, Option.some.injEq, exists_eq_left']
    refine exists_congr fun dir => and_congr_right fun _ => ?_
    generalize (if isAbs dir then dir else abs wd dir) = q
    constructor
    · intro h
      split at h
      next hq =>
        cases h
        exact ⟨rfl, hq⟩
      next => cases h
    · rintro ⟨rfl, hq⟩
      rw [if_pos hq]

lemma extractRelativeDotDotCandidates_inside (hwd : isAbs wd = true)
    (h : p ∈ extractRelativeDotDotCandidates wd command root) : Inside root p := by
  rw [extractRelativeDotDotCandidates, mem_dedup, List.mem_filterMap] at h
  obtain ⟨token, -, htoken⟩ := h
  dsimp only at htoken
  split_ifs at htoken with h₁ h₂ h₃
  obtain ⟨q, hq, heq⟩ := abs_eq_clean hwd (trimRight ";&|\"'" (stripFlag token))
  rw [heq] at h₃ htoken
  cases htoken
  exact inside_of_underRoot h₃ hq

lemma extractCdRelativeCandidates_inside
    (h : p ∈ extractCdRelativeCandidates shlexSplit command root) : Inside root p := by
  rw [extractCdRelativeCandidates] at h
  cases hargs : shlexSplit command with
  | none =>
    rw [hargs] at h
    cases h
  | some args =>
    simp only [hargs] at h
    split_ifs at h with h₁ h₂
    · cases h
    · obtain ⟨token, -, htoken⟩ := List.mem_filterMap.mp (mem_dedup.mp h)
      have htarget : isAbs (cdTarget args) = true := by
        simpa using (not_or.mp h₁).2
      split_ifs at htoken with h₃ h₄ h₅ h₆
      cases htoken
      have hjoin : isAbs (join (cdTarget args) (trimRight ";&|" token)) = true := by
        rw [join, if_pos (not_or.mp h₁).1]
        exact isAbs_clean (isAbs_cons_append htarget)
      exact inside_of_underRoot h₆ hjoin
    · cases h

/-- A directory behind a search flag is the end of an argument. -/
lemma suffix_of_mem_extractSearchPaths {args : List GoString} {dir : GoString}
    (h : dir ∈ extractSearchPaths args) : ∃ arg ∈ args, dir <:+ arg := by
  fun_induction extractSearchPaths args with
  | case1 => cases h
  | case2 arg args _ ih =>
    obtain ⟨arg', harg, hsuffix⟩ := ih h
    exact ⟨arg', List.mem_cons_of_mem _ harg, hsuffix⟩
  | case3 arg args path hflag ih =>
    rcases List.mem_cons.mp h with rfl | h
    · obtain ⟨flag, -, hflag⟩ := List.exists_of_findSome?_eq_some hflag
      split_ifs at hflag
      · cases hflag
      · obtain rfl : arg.drop flag.length = dir := by simpa using hflag
        exact ⟨arg, List.mem_cons_self, List.drop_suffix ..⟩
    · obtain ⟨arg', harg, hsuffix⟩ := ih h
      exact ⟨arg', List.mem_cons_of_mem _ harg, hsuffix⟩
  | case4 arg path args _ ih =>
    rcases List.mem_cons.mp h with rfl | h
    · exact ⟨dir, by simp, List.suffix_rfl⟩
    · obtain ⟨arg', harg, hsuffix⟩ := ih h
      exact ⟨arg', by simp [harg], hsuffix⟩
  | case5 => cases h

end Candidates

end Reninja.IncludeScanner
