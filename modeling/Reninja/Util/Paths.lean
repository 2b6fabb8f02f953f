import Reninja.IncludeScanner.Confined
import Reninja.Util.Runes

/-!
# Canonical paths

`CanonicalizePath` of `internal/util`. A path without a backslash is cleaned. In one with a
backslash all backslashes are taken for separators before, on every system, and the bytes that are
no UTF-8 are replaced.
-/

namespace Reninja.Util

open Filepath List

variable {out : List GoString} {cs : List GoString} {rooted : Bool}

/-- The loop of `CanonicalizePath` over the runes of the path; `skip` bytes belong to the rune
before. -/
def withSlashesFrom : Nat → GoString → GoString
  | _, [] => []
  | skip + 1, c :: s => c :: withSlashesFrom skip s
  | 0, c :: s =>
    match runeLength (c :: s) with
    | some n => (if c = backslash then sep else c) :: withSlashesFrom (n - 1) s
    | none => runeError ++ withSlashesFrom 0 s

def withSlashes (path : GoString) : GoString := withSlashesFrom 0 path

/-- The bits of the separators that were backslashes, the first one lowest. -/
def slashBits (path : GoString) : UInt64 :=
  (path.foldl (fun (bits, bit) c =>
    if c = backslash then (bits ||| bit, bit <<< 1)
    else if c = sep then (bits, bit <<< 1)
    else (bits, bit)) ((0 : UInt64), (1 : UInt64))).1

def canonicalizePath (path : GoString) : GoString × UInt64 :=
  if backslash ∉ path then (clean path, 0) else (clean (withSlashes path), slashBits path)

/-- The loop of `pathDecanonicalized`; `bit` belongs to the next separator. -/
def decanonicalizedFrom (slashBits : UInt64) : UInt64 → Nat → GoString → GoString
  | _, _, [] => []
  | bit, skip + 1, c :: s => c :: decanonicalizedFrom slashBits bit skip s
  | bit, 0, c :: s =>
    let next := if c = sep ∨ c = backslash then bit <<< 1 else bit
    match runeLength (c :: s) with
    | some n =>
      (if c = sep ∧ slashBits &&& bit ≠ 0 then backslash else c) ::
        decanonicalizedFrom slashBits next (n - 1) s
    | none => runeError ++ decanonicalizedFrom slashBits next 0 s

/-- `pathDecanonicalized`: the path with the backslashes that it had. -/
def pathDecanonicalized (path : GoString) (slashBits : UInt64) : GoString :=
  if slashBits = 0 then path else decanonicalizedFrom slashBits 1 0 path

lemma backslash_notMem_withSlashesFrom {skip : Nat} {s : GoString}
    (h : ∀ d ∈ s.take skip, 0x80 ≤ d) : backslash ∉ withSlashesFrom skip s := by
  induction s generalizing skip with
  | nil => simp [withSlashesFrom]
  | cons c s ih =>
    cases skip with
    | succ skip =>
      rw [withSlashesFrom, mem_cons, not_or]
      rw [take_succ_cons, forall_mem_cons] at h
      refine ⟨?_, ih h.2⟩
      rintro rfl
      exact absurd h.1 (by decide)
    | zero =>
      rw [withSlashesFrom]
      cases hrune : runeLength (c :: s) with
      | some n =>
        rw [mem_cons, not_or]
        refine ⟨?_, ih (runeLength_some hrune)⟩
        split_ifs with hc
        · decide
        · exact fun heq => hc heq.symm
      | none =>
        rw [mem_append, not_or]
        exact ⟨by decide, ih (by simp)⟩

/-! ### Locations -/

variable {p q : GoString}

lemma pushComponent_isClean {c : GoString} (hout : IsClean out) (hc : sep ∉ c) :
    IsClean (pushComponent false out c) := by
  by_cases h₁ : c = [] ∨ c = dot
  · simpa only [pushComponent, if_pos h₁] using hout
  · obtain ⟨n, names, rfl, hnames⟩ := hout
    by_cases h₂ : c = dotDot
    · rcases eq_nil_or_concat names with rfl | ⟨init, last, rfl⟩
      · -- only steps up: one more
        refine ⟨n + 1, [], ?_, by simp⟩
        have hpush := foldl_pushComponent_dotDot n 1
        rw [append_nil, append_nil, h₂]
        exact hpush
      · rw [concat_eq_append] at hnames ⊢
        have hlast : last ≠ dotDot := (hnames last (by simp)).2.2.2
        refine ⟨n, init, ?_, fun d hd => hnames d (by simp [hd])⟩
        rw [← append_assoc]
        simp only [pushComponent, if_neg h₁, if_pos h₂, getLast?_concat, if_neg hlast,
          dropLast_concat]
    · refine ⟨n, names ++ [c], ?_, fun d hd => ?_⟩
      · simp only [pushComponent, if_neg h₁, if_neg h₂, append_assoc]
      · rcases mem_append.mp hd with hd | hd
        · exact hnames d hd
        · obtain rfl := mem_singleton.mp hd
          exact ⟨fun h => h₁ (.inl h), hc, fun h => h₁ (.inr h), h₂⟩

lemma components_isClean (h : isAbs p = false) : IsClean (components p) :=
  components_induction .nil fun _ _ hout hc => h ▸ pushComponent_isClean hout hc

lemma clean_of_relative (h : isAbs p = false) : clean p = pathOf (components p) := by
  rw [clean, h]
  rfl

lemma not_isAbs_clean (h : isAbs p = false) : isAbs (clean p) = false := by
  rw [clean_of_relative h, pathOf]
  split_ifs
  · rfl
  · exact (components_isClean h).not_isAbs

lemma isAbs_clean_eq (p : GoString) : isAbs (clean p) = isAbs p := by
  cases h : isAbs p with
  | true => exact isAbs_clean h
  | false => exact not_isAbs_clean h

lemma isClean_of_names (h : ∀ c ∈ cs, IsName c) : IsClean cs :=
  ⟨0, cs, rfl, h⟩

lemma clean_eq_iff : clean p = clean q ↔ isAbs p = isAbs q ∧ components p = components q := by
  refine ⟨fun heq => ?_, fun ⟨habs, hcomponents⟩ => by simp only [clean, habs, hcomponents]⟩
  have habs : isAbs p = isAbs q := by rw [← isAbs_clean_eq p, heq, isAbs_clean_eq]
  refine ⟨habs, ?_⟩
  cases hp : isAbs p with
  | true =>
    have hq : isAbs q = true := habs ▸ hp
    rw [clean, clean, if_pos hp, if_pos hq] at heq
    exact joinComponents_injOn (isClean_of_names (isName_of_mem_components hp))
      (isClean_of_names (isName_of_mem_components hq)) (cons.inj heq).2
  | false =>
    have hq : isAbs q = false := habs ▸ hp
    rw [clean_of_relative hp, clean_of_relative hq] at heq
    exact pathOf_injOn (components_isClean hp) (components_isClean hq) heq

lemma clean_clean_eq (p : GoString) : clean (clean p) = clean p := by
  cases hp : isAbs p with
  | true => exact clean_clean hp
  | false =>
    refine clean_eq_iff.mpr ⟨isAbs_clean_eq p, ?_⟩
    rw [clean_of_relative hp, pathOf]
    split_ifs with hnil
    · rw [hnil]
      decide
    · exact (components_isClean hp).components_eq

lemma mem_joinComponents {c : UInt8} (hc : c ≠ sep) : c ∈ joinComponents cs ↔ ∃ d ∈ cs, c ∈ d := by
  induction cs with
  | nil => simp
  | cons d cs ih =>
    by_cases hcs : cs = []
    · simp [hcs]
    · rw [joinComponents_cons hcs, mem_append, mem_cons, or_iff_right hc, ih]
      simp

lemma mem_pushComponent {c d : GoString} (h : d ∈ pushComponent rooted out c) :
    d ∈ out ∨ d = c := by
  by_cases h₁ : c = [] ∨ c = dot
  · rw [pushComponent, if_pos h₁] at h
    exact .inl h
  · by_cases h₂ : c = dotDot
    · cases hl : out.getLast? with
      | none =>
        simp only [pushComponent, if_neg h₁, if_pos h₂, hl] at h
        split_ifs at h
        · exact .inl h
        · exact .inr ((mem_singleton.mp h).trans h₂.symm)
      | some l =>
        simp only [pushComponent, if_neg h₁, if_pos h₂, hl] at h
        split_ifs at h
        · rw [← h₂, mem_append, mem_singleton] at h
          exact h
        · exact .inl (mem_of_mem_dropLast h)
    · rw [pushComponent, if_neg h₁, if_neg h₂, mem_append, mem_singleton] at h
      exact h

lemma mem_foldl_pushComponent {cs out : List GoString} {d : GoString}
    (h : d ∈ cs.foldl (pushComponent rooted) out) : d ∈ out ∨ d ∈ cs := by
  induction cs generalizing out with
  | nil => exact .inl h
  | cons c cs ih =>
    rcases ih h with h | h
    · rcases mem_pushComponent h with h | rfl
      · exact .inl h
      · exact .inr mem_cons_self
    · exact .inr (mem_cons_of_mem c h)

/-- A clean path has no bytes but those of the path, separators and dots. -/
lemma mem_clean {c : UInt8} (hsep : c ≠ sep) (hdot : c ≠ 46) (h : c ∈ clean p) : c ∈ p := by
  have hcomponents : ∃ d ∈ components p, c ∈ d := by
    rw [clean] at h
    split_ifs at h with habs hnil
    · rw [mem_cons, or_iff_right hsep] at h
      exact (mem_joinComponents hsep).mp h
    · exact absurd (mem_singleton.mp h) hdot
    · exact (mem_joinComponents hsep).mp h
  obtain ⟨d, hd, hc⟩ := hcomponents
  rcases mem_foldl_pushComponent hd with hd | hd
  · simp at hd
  · have hp : joinComponents (p.splitOn sep) = p := intercalate_splitOn sep
    rw [← hp, mem_joinComponents hsep]
    exact ⟨d, hd, hc⟩

lemma backslash_notMem_canonicalizePath (p : GoString) : backslash ∉ (canonicalizePath p).1 := by
  have hclean : ∀ q : GoString, backslash ∉ q → backslash ∉ clean q := fun q hq hmem =>
    hq (mem_clean (by decide) (by decide) hmem)
  rw [canonicalizePath]
  split_ifs with hp
  · exact hclean _ (backslash_notMem_withSlashesFrom (by simp))
  · exact hclean p hp

lemma canonicalizePath_idempotent (p : GoString) :
    (canonicalizePath (canonicalizePath p).1).1 = (canonicalizePath p).1 := by
  have hclean : clean (canonicalizePath p).1 = (canonicalizePath p).1 := by
    conv_lhs => rw [canonicalizePath]
    conv_rhs => rw [canonicalizePath]
    split_ifs <;> exact clean_clean_eq _
  rw [canonicalizePath, if_pos (backslash_notMem_canonicalizePath p), hclean]

/-- Paths without a backslash are mapped to their own locations, and to one node only if these are
the same. Of the others only those can keep their location whose backslashes are all gone when the
path is cleaned, as in `x\/..`. -/
theorem canonicalizePath_keeps (hp : backslash ∉ p) (hq : backslash ∉ q) :
    (canonicalizePath p).1 = clean p ∧
      ((canonicalizePath p).1 = (canonicalizePath q).1 → clean p = clean q) ∧
      ∀ r, (canonicalizePath (canonicalizePath r).1).1 = (canonicalizePath r).1 ∧
        ((canonicalizePath r).1 = clean r → backslash ∉ clean r) := by
  have hclean {r : GoString} (hr : backslash ∉ r) : (canonicalizePath r).1 = clean r := by
    rw [canonicalizePath, if_pos hr]
  refine ⟨hclean hp, fun heq => ?_, fun r => ⟨canonicalizePath_idempotent r, fun heq => ?_⟩⟩
  · rwa [hclean hp, hclean hq] at heq
  · rw [← heq]
    exact backslash_notMem_canonicalizePath r

theorem canonicalizePath_keeps_dots : (canonicalizePath "./a//b").1 = clean "./a//b" ∧
    (canonicalizePath "./a//b").1 = "a/b" ∧ (canonicalizePath "a/c/../b").1 = "a/b" ∧
      clean "./a//b" = clean "a/c/../b" := by
  obtain ⟨hclean, hsame, -⟩ := canonicalizePath_keeps (p := "./a//b") (q := "a/c/../b")
    (by decide +kernel) (by decide +kernel)
  exact ⟨hclean, by decide +kernel, by decide +kernel, hsame (by decide +kernel)⟩

/-- A file name with a backslash is mapped to the node of a file in a directory. -/
theorem backslash_changes_location :
    (canonicalizePath "a\\b").1 = "a/b" ∧ (canonicalizePath "a/b").1 = "a/b" ∧
      clean "a\\b" = "a\\b" ∧ clean "a/b" = "a/b" ∧ ("a\\b" : GoString) ≠ "a/b" := by
  decide +kernel

end Reninja.Util
