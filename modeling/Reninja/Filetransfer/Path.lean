import Mathlib.Data.List.TakeWhile
import Reninja.Graph.Basic
import Reninja.Library.LineReader

/-!
# Slash-separated paths

The functions of Go's `path/filepath` that the file transfer uses, on Unix. A path is taken
apart at its slashes into components, cleaned there, and put together again.
-/

namespace Reninja.Filepath

open List

variable {cs : List GoString} {c : GoString} {as bs : List GoString}

def sep : UInt8 := 47

def dot : GoString := [46]

def dotDot : GoString := [46, 46]

def isAbs (p : GoString) : Bool := p.head? = some sep

/-- Put components together with separators between them. -/
def joinComponents (cs : List GoString) : GoString := [sep].intercalate cs

/-- One component on the way of `Clean`: empty components and dots are dropped, and two dots
remove the component before them, if there is one to remove. -/
def pushComponent (rooted : Bool) (out : List GoString) (c : GoString) : List GoString :=
  if c = [] ∨ c = dot then
    out
  else if c = dotDot then
    match out.getLast? with
    | some l => if l = dotDot then out ++ [dotDot] else out.dropLast
    | none => if rooted then out else [dotDot]
  else
    out ++ [c]

def components (p : GoString) : List GoString :=
  (p.splitOn sep).foldl (pushComponent (isAbs p)) []

def clean (p : GoString) : GoString :=
  if isAbs p then
    sep :: joinComponents (components p)
  else if components p = [] then
    dot
  else
    joinComponents (components p)

def join (a b : GoString) : GoString :=
  if a ≠ [] then clean (a ++ sep :: b) else if b ≠ [] then clean b else []

/-- `Rel` on components, after the common ones are gone. -/
def relComponents : List GoString → List GoString → Option (List GoString)
  | b :: bs, t :: ts =>
    if b = t then relComponents bs ts
    else if b = dotDot then none
    else some (replicate (bs.length + 1) dotDot ++ t :: ts)
  | b :: bs, [] => if b = dotDot then none else some (replicate (bs.length + 1) dotDot)
  | [], ts => some ts

def rel (base target : GoString) : Except GoString GoString :=
  let err := "Rel: can't make " ++ target ++ " relative to " ++ base
  if isAbs base ≠ isAbs target then
    .error err
  else
    match relComponents (components base) (components target) with
    | none => .error err
    | some [] => .ok dot
    | some cs => .ok (joinComponents cs)

/-- What is left of a path after its last slash is the base; the slash stays before it. -/
def splitLast (p : GoString) : GoString × GoString :=
  ((p.reverse.dropWhile (· ≠ sep)).reverse, (p.reverse.takeWhile (· ≠ sep)).reverse)

def dir (p : GoString) : GoString := clean (splitLast p).1

def base (p : GoString) : GoString :=
  if p = [] then
    dot
  else
    let stripped := (p.reverse.dropWhile (· = sep)).reverse
    if stripped = [] then [sep] else (splitLast stripped).2

/-! ### Clean relative paths -/

/-- A name that can stand between two slashes of a clean path. -/
def IsName (c : GoString) : Prop := c ≠ [] ∧ sep ∉ c ∧ c ≠ dot ∧ c ≠ dotDot

/-- The components of a clean relative path: some steps up, and then names. -/
def IsClean (cs : List GoString) : Prop :=
  ∃ n names, cs = replicate n dotDot ++ names ∧ ∀ c ∈ names, IsName c

/-- The path with these components; none is the root itself. -/
def pathOf (cs : List GoString) : GoString := if cs = [] then dot else joinComponents cs

@[simp] lemma pathOf_nil : pathOf [] = dot := rfl

lemma pathOf_of_ne_nil (h : cs ≠ []) : pathOf cs = joinComponents cs :=
  if_neg h

@[simp] lemma joinComponents_nil : joinComponents [] = [] := rfl

@[simp] lemma joinComponents_singleton (c : GoString) : joinComponents [c] = c := by
  simp [joinComponents, intercalate]

lemma joinComponents_cons (h : cs ≠ []) :
    joinComponents (c :: cs) = c ++ sep :: joinComponents cs := by
  cases cs with
  | nil => exact absurd rfl h
  | cons d ds => simp [joinComponents, intercalate]

lemma joinComponents_append (ha : as ≠ []) (hb : bs ≠ []) :
    joinComponents (as ++ bs) = joinComponents as ++ sep :: joinComponents bs := by
  induction as with
  | nil => exact absurd rfl ha
  | cons a as ih =>
    by_cases h : as = []
    · subst h
      simp [joinComponents_cons hb]
    · rw [cons_append, joinComponents_cons (by simp [h]), joinComponents_cons h, ih h]
      simp

lemma splitOn_joinComponents (h : cs ≠ []) (hs : ∀ c ∈ cs, sep ∉ c) :
    (joinComponents cs).splitOn sep = cs :=
  splitOn_intercalate sep hs h

lemma pushComponent_name (h : IsName c) (rooted : Bool) (out : List GoString) :
    pushComponent rooted out c = out ++ [c] := by
  obtain ⟨h₁, -, h₃, h₄⟩ := h
  simp [pushComponent, h₁, h₃, h₄]

lemma foldl_pushComponent (h : ∀ c ∈ cs, IsName c) (rooted : Bool) (out : List GoString) :
    cs.foldl (pushComponent rooted) out = out ++ cs := by
  induction cs generalizing out with
  | nil => simp
  | cons c cs ih =>
    rw [foldl_cons, pushComponent_name (h c (by simp)), ih fun d hd => h d (by simp [hd])]
    simp

lemma isAbs_append {a b : GoString} (h : a ≠ []) : isAbs (a ++ b) = isAbs a := by
  cases a with
  | nil => exact absurd rfl h
  | cons x xs => simp [isAbs]

lemma IsClean.nil : IsClean [] := ⟨0, [], rfl, by simp⟩

lemma IsClean.left (h : IsClean (as ++ bs)) : IsClean as := by
  obtain ⟨n, names, heq, hnames⟩ := h
  rcases append_eq_append_iff.mp heq with ⟨a, ha, -⟩ | ⟨a, rfl, hb⟩
  · -- only steps up are left
    refine ⟨as.length, [], ?_, by simp⟩
    rw [append_nil, eq_replicate_iff]
    exact ⟨rfl, fun c hc => eq_of_mem_replicate (ha ▸ mem_append_left a hc)⟩
  · exact ⟨n, a, rfl, fun c hc => hnames c (hb ▸ mem_append_left bs hc)⟩

lemma IsClean.ne_nil (h : IsClean cs) (hc : c ∈ cs) : c ≠ [] := by
  obtain ⟨n, names, rfl, hnames⟩ := h
  rcases mem_append.mp hc with hc | hc
  · rw [eq_of_mem_replicate hc]
    decide
  · exact (hnames c hc).1

lemma IsClean.sep_notMem (h : IsClean cs) (hc : c ∈ cs) : sep ∉ c := by
  obtain ⟨n, names, rfl, hnames⟩ := h
  rcases mem_append.mp hc with hc | hc
  · rw [eq_of_mem_replicate hc]
    decide
  · exact (hnames c hc).2.1

lemma foldl_pushComponent_dotDot (k n : Nat) :
    (replicate n dotDot).foldl (pushComponent false) (replicate k dotDot) =
      replicate (k + n) dotDot := by
  induction n generalizing k with
  | zero => rfl
  | succ n ih =>
    have hpush : pushComponent false (replicate k dotDot) dotDot =
        replicate (k + 1) dotDot := by
      cases k with
      | zero => decide
      | succ k =>
        simp [pushComponent, show dotDot ≠ [] by decide, show dotDot ≠ dot by decide,
          replicate_succ']
    rw [replicate_succ, foldl_cons, hpush, ih]
    congr 1
    omega

lemma IsClean.foldl_eq (h : IsClean cs) : cs.foldl (pushComponent false) [] = cs := by
  obtain ⟨n, names, rfl, hnames⟩ := h
  have hup := foldl_pushComponent_dotDot 0 n
  rw [Nat.zero_add, replicate_zero] at hup
  rw [foldl_append, hup, foldl_pushComponent hnames]

lemma IsClean.joinComponents_ne_nil (h : IsClean cs) (hcs : cs ≠ []) : joinComponents cs ≠ [] := by
  cases cs with
  | nil => exact absurd rfl hcs
  | cons c cs =>
    have hc := h.ne_nil (c := c) (by simp)
    by_cases h' : cs = [] <;> simp [h', joinComponents_cons, hc]

lemma IsClean.not_isAbs (h : IsClean cs) : isAbs (joinComponents cs) = false := by
  cases cs with
  | nil => rfl
  | cons c cs =>
    have habs : isAbs c = false := by
      cases c with
      | nil => rfl
      | cons x xs =>
        have : x ≠ sep := fun hx => h.sep_notMem (c := x :: xs) (by simp) (by simp [hx])
        simp [isAbs, this]
    by_cases hcs : cs = []
    · simpa [hcs] using habs
    · rw [joinComponents_cons hcs, isAbs_append (h.ne_nil (by simp)), habs]

lemma IsClean.components_eq (h : IsClean cs) : components (joinComponents cs) = cs := by
  by_cases hcs : cs = []
  · subst hcs
    decide
  · rw [components, splitOn_joinComponents hcs fun c hc => h.sep_notMem hc, h.not_isAbs, h.foldl_eq]

lemma joinComponents_injOn (ha : IsClean as) (hb : IsClean bs)
    (h : joinComponents as = joinComponents bs) : as = bs := by
  rw [← ha.components_eq, h, hb.components_eq]

/-- In a string without separators there is nothing to cut at. -/
lemma all_ne_sep (h : sep ∉ c) : ∀ x ∈ c.reverse, decide (x ≠ sep) = true := by
  intro x hx
  simp only [mem_reverse] at hx
  simp only [ne_eq, decide_eq_true_eq]
  rintro rfl
  exact h hx

lemma splitLast_append_cons {a c : GoString} (h : sep ∉ c) :
    splitLast (a ++ sep :: c) = (a ++ [sep], c) := by
  simp only [splitLast, reverse_append, reverse_cons, append_assoc]
  rw [dropWhile_append_of_pos (all_ne_sep h), takeWhile_append_of_pos (all_ne_sep h)]
  simp

lemma splitLast_of_notMem (h : sep ∉ c) : splitLast c = ([], c) := by
  simp only [splitLast, dropWhile_eq_nil_iff.mpr (all_ne_sep h),
    takeWhile_eq_self_iff.mpr (all_ne_sep h), reverse_nil, reverse_reverse]

lemma IsClean.clean_sep (h : IsClean cs) (hcs : cs ≠ []) :
    clean (joinComponents cs ++ [sep]) = joinComponents cs := by
  have habs : isAbs (joinComponents cs ++ [sep]) = false := by
    rw [isAbs_append (h.joinComponents_ne_nil hcs), h.not_isAbs]
  have hcomp : components (joinComponents cs ++ [sep]) = cs := by
    have hjoin : joinComponents cs ++ [sep] = joinComponents (cs ++ [[]]) := by
      rw [joinComponents_append hcs (by simp)]
      simp
    rw [components, habs, hjoin, splitOn_joinComponents (by simp), foldl_append, h.foldl_eq]
    · simp [pushComponent]
    · intro c hc
      rcases mem_append.mp hc with hc | hc
      · exact h.sep_notMem hc
      · simp_all
  simp [clean, habs, hcomp, hcs]

lemma dir_pathOf (h : IsClean (cs ++ [c])) : dir (pathOf (cs ++ [c])) = pathOf cs := by
  have hc : sep ∉ c := h.sep_notMem (by simp)
  rw [pathOf_of_ne_nil (by simp)]
  by_cases hcs : cs = []
  · subst hcs
    rw [nil_append, joinComponents_singleton, dir, splitLast_of_notMem hc]
    change clean [] = dot
    decide
  · rw [joinComponents_append hcs (by simp), joinComponents_singleton, dir,
      splitLast_append_cons hc, h.left.clean_sep hcs, pathOf_of_ne_nil hcs]

lemma dir_dot : dir dot = dot := by decide

lemma base_joinComponents (cs : List GoString) (hne : c ≠ []) (hc : sep ∉ c) :
    base (joinComponents (cs ++ [c])) = c := by
  have hlast : ∀ a : GoString, (∃ b, a = b ++ c ∧ (splitLast a).2 = c) → base a = c := by
    rintro a ⟨b, rfl, hs⟩
    obtain ⟨x, xs, rfl⟩ : ∃ x xs, c = xs ++ [x] :=
      ⟨c.getLast hne, c.dropLast, (dropLast_append_getLast hne).symm⟩
    have hx : x ≠ sep := by
      rintro rfl
      exact hc (by simp)
    simp [base, hx, hs]
  apply hlast
  by_cases hcs : cs = []
  · subst hcs
    exact ⟨[], by simp, by simp [splitLast_of_notMem hc]⟩
  · refine ⟨joinComponents cs ++ [sep], ?_, ?_⟩
    · simp [joinComponents_append hcs]
    · rw [joinComponents_append hcs (by simp), joinComponents_singleton, splitLast_append_cons hc]

lemma base_pathOf (h : IsClean (cs ++ [c])) : base (pathOf (cs ++ [c])) = c := by
  rw [pathOf_of_ne_nil (by simp)]
  exact base_joinComponents cs (h.ne_nil (by simp)) (h.sep_notMem (by simp))

lemma IsClean.pathOf_ne_dot (h : IsClean cs) (hcs : cs ≠ []) : pathOf cs ≠ dot := by
  intro heq
  rw [pathOf_of_ne_nil hcs] at heq
  have := h.components_eq
  rw [heq] at this
  exact hcs (this.symm.trans (by decide))

lemma pathOf_injOn (ha : IsClean as) (hb : IsClean bs) (h : pathOf as = pathOf bs) : as = bs := by
  by_cases ha' : as = [] <;> by_cases hb' : bs = []
  · rw [ha', hb']
  · subst ha'
    exact absurd h.symm (hb.pathOf_ne_dot hb')
  · subst hb'
    exact absurd h (ha.pathOf_ne_dot ha')
  · rw [pathOf_of_ne_nil ha', pathOf_of_ne_nil hb'] at h
    exact joinComponents_injOn ha hb h

/-- A path can be cut at a slash only between two of its components. -/
lemma joinComponents_eq_append_sep (h : ∀ c ∈ cs, sep ∉ c) {q r : GoString}
    (heq : joinComponents cs = q ++ sep :: r) :
    ∃ as bs, as ≠ [] ∧ bs ≠ [] ∧ cs = as ++ bs ∧ q = joinComponents as := by
  induction cs generalizing q with
  | nil => simp at heq
  | cons c cs ih =>
    have hc := h c (by simp)
    by_cases hcs : cs = []
    · subst hcs
      rw [joinComponents_singleton] at heq
      exact absurd (by simp [heq]) hc
    · rw [joinComponents_cons hcs] at heq
      rcases append_eq_append_iff.mp heq with ⟨a, hq, ha⟩ | ⟨a, hq, ha⟩
      · cases a with
        | nil =>
          exact ⟨[c], cs, by simp, hcs, by simp, by simpa using hq⟩
        | cons x a =>
          obtain ⟨rfl, hr⟩ : sep = x ∧ joinComponents cs = a ++ sep :: r := by
            simpa using ha
          obtain ⟨as, bs, h₁, h₂, h₃, rfl⟩ := ih (fun d hd => h d (by simp [hd])) hr
          exact ⟨c :: as, bs, by simp, h₂, by simp [h₃], by rw [hq, joinComponents_cons h₁]⟩
      · cases a with
        | nil =>
          exact ⟨[c], cs, by simp, hcs, by simp, by simpa using hq.symm⟩
        | cons x a =>
          obtain ⟨rfl, -⟩ : sep = x ∧ r = a ++ sep :: joinComponents cs := by simpa using ha
          exact absurd (by simp [hq]) hc

lemma pushComponent_isName {out : List GoString} (hout : ∀ d ∈ out, IsName d) (hc : sep ∉ c) :
    ∀ d ∈ pushComponent true out c, IsName d := by
  by_cases h₁ : c = [] ∨ c = dot
  · simpa only [pushComponent, if_pos h₁] using hout
  · by_cases h₂ : c = dotDot
    · cases hl : out.getLast? with
      | none => simpa [pushComponent, h₁, h₂, hl] using hout
      | some l =>
        have hne : l ≠ dotDot := (hout l (mem_of_getLast? hl)).2.2.2
        simp only [pushComponent, if_neg h₁, if_pos h₂, hl, if_neg hne]
        exact fun d hd => hout d ((dropLast_sublist out).subset hd)
    · simp only [pushComponent, if_neg h₁, if_neg h₂]
      intro d hd
      rcases mem_append.mp hd with hd | hd
      · exact hout d hd
      · rw [mem_singleton] at hd
        subst hd
        exact ⟨fun h => h₁ (.inl h), hc, fun h => h₁ (.inr h), h₂⟩

lemma components_induction {p : GoString} {I : List GoString → Prop} (hnil : I [])
    (hpush : ∀ out c, I out → sep ∉ c → I (pushComponent (isAbs p) out c)) : I (components p) :=
  foldlRecOn _ _ hnil fun out hout c hc =>
    hpush out c hout (LineReader.notMem_of_mem_splitOn p hc)

lemma isName_of_mem_components {p : GoString} (h : isAbs p = true) :
    ∀ c ∈ components p, IsName c :=
  components_induction (I := fun out => ∀ c ∈ out, IsName c) (by simp)
    fun _ _ hout hc => h ▸ pushComponent_isName hout hc

lemma relComponents_isClean {bs ts cs : List GoString} (ht : ∀ c ∈ ts, IsName c)
    (h : relComponents bs ts = some cs) : IsClean cs := by
  induction bs generalizing ts with
  | nil =>
    simp only [relComponents, Option.some.injEq] at h
    exact ⟨0, ts, by simp [h], ht⟩
  | cons b bs ih =>
    cases ts with
    | nil =>
      simp only [relComponents] at h
      split at h
      · cases h
      · exact ⟨bs.length + 1, [], by simpa using h.symm, by simp⟩
    | cons t ts =>
      simp only [relComponents] at h
      split_ifs at h
      · exact ih (fun c hc => ht c (by simp [hc])) h
      · exact ⟨bs.length + 1, t :: ts, by simpa using h.symm, ht⟩

lemma rel_isClean {base target r : GoString} (habs : isAbs target = true)
    (h : rel base target = .ok r) : ∃ cs, IsClean cs ∧ r = pathOf cs := by
  unfold rel at h
  simp only at h
  split at h
  · cases h
  · cases hc : relComponents (components base) (components target) with
    | none => simp [hc] at h
    | some cs =>
      refine ⟨cs, relComponents_isClean (isName_of_mem_components habs) hc, ?_⟩
      cases cs with
      | nil =>
        simp only [hc, Except.ok.injEq] at h
        exact h.symm
      | cons c cs =>
        simp only [hc, Except.ok.injEq] at h
        rw [pathOf_of_ne_nil (by simp), h]

end Reninja.Filepath
