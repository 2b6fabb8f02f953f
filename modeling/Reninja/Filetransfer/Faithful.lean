import Mathlib.Data.Finset.Max
import Mathlib.Data.List.Lex
import Reninja.Filetransfer.Tree

/-!
# What the root digest says

A `Directory` message, together with the messages its digests stand for, describes files:
`FileAt`. This file proves when the root that `hashDirectoryTree` returns describes exactly
the listed files, and that it then depends on them and on nothing else.
-/

namespace Reninja

open Filepath List

variable {ns : List GoString} {content : GoString} {dir : Directory} {q : GoString} {a b : GoString}
  {x : Bool}
variable {as bs : List GoString} {root : GoString}

def rank (c : UInt8) : Nat := if c = sep then 0 else c.toNat + 1

lemma rank_injective : Function.Injective rank := by
  intro c₁ c₂ h
  unfold rank at h
  split_ifs at h with h₁ h₂ h₂
  · rw [h₁, h₂]
  · exact UInt8.toNat_inj.mp (by omega)

lemma compare_cons (c₁ c₂ : UInt8) (b₁ b₂ : GoString) :
    hierarchicalPathCompare (c₁ :: b₁) (c₂ :: b₂) ≤ 0 ↔
      rank c₁ < rank c₂ ∨ (c₁ = c₂ ∧ hierarchicalPathCompare b₁ b₂ ≤ 0) := by
  by_cases h : c₁ = c₂
  · simp [hierarchicalPathCompare, h]
  · have key : rank c₁ < rank c₂ ↔ c₁ = sep ∨ c₂ ≠ sep ∧ c₁ < c₂ := by
      unfold rank
      split_ifs with h₁ h₂ h₂
      · exact absurd (h₁.trans h₂.symm) h
      · simp [h₁]
      · simp [h₁, h₂]
      · simp [h₁, h₂, UInt8.lt_iff_toNat_lt]
    rw [key]
    simp only [hierarchicalPathCompare, h, false_and, or_false]
    split_ifs <;> simp_all

lemma compare_iff (a b : GoString) :
    hierarchicalPathCompare a b ≤ 0 ↔ a.map rank ≤ b.map rank := by
  induction a generalizing b with
  | nil => exact iff_of_true (by simp [hierarchicalPathCompare]) (not_lt.mp (not_lt_nil _))
  | cons x a ih =>
    cases b with
    | nil =>
      exact iff_of_false (by simp [hierarchicalPathCompare]) (not_le.mpr (nil_lt_cons _ _))
    | cons y b =>
      rw [compare_cons, ih, map_cons, map_cons, ← not_lt, ← not_lt,
        cons_lt_cons_iff, ← rank_injective.eq_iff]
      grind

lemma compare_total (a b : GoString) :
    hierarchicalPathCompare a b ≤ 0 ∨ hierarchicalPathCompare b a ≤ 0 := by
  rw [compare_iff, compare_iff]
  exact le_total _ _

lemma compare_antisymm {a b : GoString} (h₁ : hierarchicalPathCompare a b ≤ 0)
    (h₂ : hierarchicalPathCompare b a ≤ 0) : a = b := by
  rw [compare_iff] at h₁ h₂
  exact rank_injective.list_map (le_antisymm h₁ h₂)

lemma compare_trans {a b c : GoString} (h₁ : hierarchicalPathCompare a b ≤ 0)
    (h₂ : hierarchicalPathCompare b c ≤ 0) : hierarchicalPathCompare a c ≤ 0 := by
  rw [compare_iff] at *
  exact le_trans h₁ h₂

/-- A path comes before everything that it is a proper beginning of. -/
lemma compare_append (a b : GoString) : hierarchicalPathCompare a (a ++ b) ≤ 0 := by
  induction a with
  | nil => simp [hierarchicalPathCompare]
  | cons x a ih => exact (compare_cons x x a (a ++ b)).mpr (.inr ⟨rfl, ih⟩)

lemma mem_subPaths {p q : GoString} : q ∈ subPaths p ↔ ∃ r, p = q ++ sep :: r := by
  induction p generalizing q with
  | nil => simp [subPaths]
  | cons c p ih =>
    simp only [subPaths, mem_append, mem_map, ih]
    constructor
    · rintro (hq | ⟨q, ⟨r, rfl⟩, rfl⟩)
      · split at hq
        · simp_all
        · simp at hq
      · exact ⟨r, rfl⟩
    · rintro ⟨r, hr⟩
      cases q with
      | nil => simp_all
      | cons x q =>
        obtain ⟨rfl, rfl⟩ : c = x ∧ p = q ++ sep :: r := by simpa using hr
        exact .inr ⟨q, ⟨r, rfl⟩, rfl⟩

lemma mem_subPaths_pathOf {cs : List GoString} (h : IsClean cs) :
    q ∈ subPaths (pathOf cs) ↔ ∃ as bs, as ≠ [] ∧ bs ≠ [] ∧ cs = as ++ bs ∧ q = pathOf as := by
  rw [mem_subPaths]
  constructor
  · rintro ⟨r, hr⟩
    by_cases hcs : cs = []
    · subst hcs
      have : sep ∈ dot := by
        rw [pathOf_nil] at hr
        simp [hr]
      exact absurd this (by decide)
    · rw [pathOf_of_ne_nil hcs] at hr
      obtain ⟨as, bs, ha, hb, hcs, rfl⟩ := joinComponents_eq_append_sep
        (fun c hc => h.sep_notMem hc) hr
      exact ⟨as, bs, ha, hb, hcs, (pathOf_of_ne_nil ha).symm⟩
  · rintro ⟨as, bs, ha, hb, rfl, rfl⟩
    refine ⟨joinComponents bs, ?_⟩
    rw [pathOf_of_ne_nil (by simp [ha]), pathOf_of_ne_nil ha, joinComponents_append ha hb]

/-- A clean relative path; the root is one of them. -/
def IsTreePath (q : GoString) : Prop := ∃ cs, IsClean cs ∧ q = pathOf cs

/-! ### One directory -/

section Collect

variable {h : Hashing} {fs : FileSystem} {p : Project}
variable {R : List GoString} {f : FileNode}

/-- The message of a directory whose entries have been collected. -/
def completed (h : Hashing) (p : Project) (root : GoString) (dir : Directory) : Directory :=
  addSynthetic h p.workingDirectory root dir

def OnTheWay (p : Project) (root : GoString) : Prop :=
  p.workingDirectory ≠ [] ∧ p.workingDirectory ≠ dot ∧
    (root = p.workingDirectory ∨ (root ++ [sep]) <+: p.workingDirectory)

instance (p : Project) (root : GoString) : Decidable (OnTheWay p root) :=
  inferInstanceAs (Decidable (_ ∧ _ ∧ _))

lemma completed_directories (root : GoString) (dir : Directory) :
    (completed h p root dir).directories = dir.directories := by
  rw [completed, addSynthetic]
  split <;> rfl

lemma mem_completed_files : f ∈ (completed h p root dir).files ↔ f ∈ dir.files ∨
      dir = {} ∧ OnTheWay p root ∧ f = ⟨".reninja", h.compute "reninja", false⟩ := by
  rw [completed, addSynthetic]
  split
  · rename_i hc
    simp [hc.1, OnTheWay, hc.2]
  · rename_i hc
    constructor
    · exact .inl
    · rintro (hf | ⟨hd, hw, -⟩)
      · exact hf
      · exact absurd ⟨hd, hw⟩ hc

lemma dir_eq_iff {q : GoString} (hq : IsTreePath q) (hR : IsClean R) (hroot : R = [] → q ≠ dot) :
    Filepath.dir q = pathOf R ↔ ∃ c, IsClean (R ++ [c]) ∧ q = pathOf (R ++ [c]) := by
  constructor
  · intro hdir
    obtain ⟨cs, hcs, rfl⟩ := hq
    rcases eq_nil_or_concat cs with rfl | ⟨cs, c, rfl⟩
    · rw [pathOf_nil, dir_dot] at hdir
      have : R = [] := (pathOf_injOn .nil hR (pathOf_nil.trans hdir)).symm
      exact absurd pathOf_nil (hroot this)
    · rw [concat_eq_append] at hcs hdir ⊢
      rw [dir_pathOf hcs] at hdir
      obtain rfl := pathOf_injOn hcs.left hR hdir
      exact ⟨c, hcs, rfl⟩
  · rintro ⟨c, hc, rfl⟩
    exact dir_pathOf hc

/-- What one path adds to the directory that is being filled. -/
inductive Adds (h : Hashing) (fs : FileSystem) (p : Project) (root q : GoString)
    (rest : List GoString) (dir : Directory) : Directory → Prop
  | elsewhere : Filepath.dir q ≠ root → Adds h fs p root q rest dir dir
  | file {content : GoString} {x : Bool} : Filepath.dir q = root →
      entryAt fs p q = some (.regular content x) →
      Adds h fs p root q rest dir
        { dir with files := dir.files ++ [⟨base q, h.compute content, x⟩] }
  | directory {sub : Directory} {below : List UploadableNode} : Filepath.dir q = root →
      entryAt fs p q = some .dir → collectEntries h fs p q rest {} [] = .ok (sub, below) →
      Adds h fs p root q rest dir
        { dir with directories := dir.directories ++ [⟨base q, h.directory (completed h p q sub)⟩] }
  | ignored {e : Entry} {symlinks : List SymlinkNode} : Filepath.dir q = root →
      entryAt fs p q = some e → e ≠ .dir → (∀ content x, e ≠ .regular content x) →
      Adds h fs p root q rest dir { dir with symlinks := symlinks }

variable {root q : GoString} {rest : List GoString} {dir dir' : Directory}
  {vis vis' : List UploadableNode}

lemma collectEntries_cons
    (hok : collectEntries h fs p root (q :: rest) dir vis = .ok (dir', vis')) :
    ∃ mid mvis, Adds h fs p root q rest dir mid ∧
      collectEntries h fs p root rest mid mvis = .ok (dir', vis') := by
  rw [collectEntries] at hok
  split_ifs at hok with hdir
  · exact ⟨dir, vis, .elsewhere hdir, hok⟩
  · have hdir := not_not.mp hdir
    cases he : entryAt fs p q with
    | none =>
      simp [he] at hok
    | some e =>
      rw [he] at hok
      cases e with
      | dir =>
        simp only at hok
        cases hsub : collectEntries h fs p q rest {} [] with
        | error err => simp [hsub] at hok
        | ok r =>
          rw [hsub] at hok
          exact ⟨_, _, .directory hdir he hsub, hok⟩
      | regular content x => exact ⟨_, _, .file hdir he, hok⟩
      | symlink target => exact ⟨_, _, .ignored hdir he (by simp) (by simp), hok⟩
      | other => exact ⟨dir, vis, .ignored hdir he (by simp) (by simp), hok⟩

lemma mem_files (hok : collectEntries h fs p root rest dir vis = .ok (dir', vis')) :
    f ∈ dir'.files ↔ f ∈ dir.files ∨ ∃ q ∈ rest, Filepath.dir q = root ∧
      ∃ content x, entryAt fs p q = some (.regular content x) ∧
        f = ⟨base q, h.compute content, x⟩ := by
  induction rest generalizing dir vis with
  | nil =>
    simp only [collectEntries, Except.ok.injEq, Prod.mk.injEq] at hok
    simp [hok.1]
  | cons q rest ih =>
    obtain ⟨mid, mvis, hadds, hok⟩ := collectEntries_cons hok
    rw [ih hok]
    cases hadds with
    | elsewhere hd => simp [hd]
    | file hd he =>
      simp only [mem_append, mem_cons, exists_eq_or_imp, hd, he, true_and,
        Option.some.injEq, Entry.regular.injEq]
      grind
    | directory hd he => simp [hd, he]
    | ignored hd he _ hne => simp [hd, he, hne]

lemma mem_directories {n : DirectoryNode}
    (hok : collectEntries h fs p root rest dir vis = .ok (dir', vis')) :
    n ∈ dir'.directories ↔ n ∈ dir.directories ∨ ∃ l₁ q l₂, rest = l₁ ++ q :: l₂ ∧
      Filepath.dir q = root ∧ entryAt fs p q = some .dir ∧
      ∃ sub below, collectEntries h fs p q l₂ {} [] = .ok (sub, below) ∧
        n = ⟨base q, h.directory (completed h p q sub)⟩ := by
  induction rest generalizing dir vis with
  | nil =>
    simp only [collectEntries, Except.ok.injEq, Prod.mk.injEq] at hok
    simp [hok.1]
  | cons q rest ih =>
    obtain ⟨mid, mvis, hadds, hok⟩ := collectEntries_cons hok
    rw [ih hok]
    have hsplit : ∀ P : GoString → List GoString → Prop,
        (∃ l₁ r l₂, q :: rest = l₁ ++ r :: l₂ ∧ P r l₂) ↔
          P q rest ∨ ∃ l₁ r l₂, rest = l₁ ++ r :: l₂ ∧ P r l₂ := by
      intro P
      constructor
      · rintro ⟨l₁, r, l₂, hl, hP⟩
        cases l₁ with
        | nil =>
          obtain ⟨rfl, rfl⟩ : q = r ∧ rest = l₂ := by simpa using hl
          exact .inl hP
        | cons a l₁ => exact .inr ⟨l₁, r, l₂, by simpa using (cons.inj hl).2, hP⟩
      · rintro (hP | ⟨l₁, r, l₂, rfl, hP⟩)
        · exact ⟨[], q, rest, rfl, hP⟩
        · exact ⟨q :: l₁, r, l₂, rfl, hP⟩
    rw [hsplit]
    cases hadds with
    | elsewhere hd => simp [hd]
    | file hd he => simp [hd, he]
    | directory hd he hsub =>
      simp only [mem_append, mem_singleton, hd, he, hsub, true_and, Except.ok.injEq,
        Prod.mk.injEq]
      grind
    | ignored hd he hne _ => simp [hd, he, hne]

def Directory.names (d : Directory) : List GoString :=
  d.files.map (·.name) ++ d.directories.map (·.name)

/-- The names of a finished directory are distinct when those already in it are, and none of
them is still to come. -/
lemma names_nodup (hR : IsClean R) (hpaths : ∀ q ∈ rest, IsTreePath q) (hroot : R = [] → dot ∉ rest)
    (hnodup : rest.Nodup) (hdir : dir.names.Nodup)
    (hnew : ∀ q ∈ rest, Filepath.dir q = pathOf R → base q ∉ dir.names)
    (hok : collectEntries h fs p (pathOf R) rest dir vis = .ok (dir', vis')) :
    dir'.names.Nodup := by
  induction rest generalizing dir vis with
  | nil =>
    simp only [collectEntries, Except.ok.injEq, Prod.mk.injEq] at hok
    exact hok.1 ▸ hdir
  | cons q rest ih =>
    obtain ⟨mid, mvis, hadds, hok⟩ := collectEntries_cons hok
    obtain ⟨hq, hnodup⟩ := nodup_cons.mp hnodup
    have hroot' : R = [] → dot ∉ rest := fun hr hmem => hroot hr (by simp [hmem])
    -- only a path with the name of `q` in the same directory could bring that name again
    have hbase : Filepath.dir q = pathOf R → ∀ r ∈ rest, Filepath.dir r = pathOf R →
        base r ≠ base q := by
      intro hdq r hr hdr heq
      obtain ⟨c, hc, rfl⟩ := (dir_eq_iff (hpaths q (by simp)) hR
        fun hr he => hroot hr (by simp [he])).mp hdq
      obtain ⟨d, hd, rfl⟩ := (dir_eq_iff (hpaths r (by simp [hr])) hR
        fun hr' he => hroot' hr' (he ▸ hr)).mp hdr
      rw [base_pathOf hc, base_pathOf hd] at heq
      exact hq (heq ▸ hr)
    have hmem : ∀ r ∈ rest, Filepath.dir r = pathOf R → base r ∉ dir.names :=
      fun r hr => hnew r (by simp [hr])
    -- an entry named after `q` keeps the names distinct and still to come
    have hadd : Filepath.dir q = pathOf R → mid.names.Perm (base q :: dir.names) →
        mid.names.Nodup ∧ ∀ r ∈ rest, Filepath.dir r = pathOf R → base r ∉ mid.names := by
      intro hdq hperm
      refine ⟨hperm.nodup_iff.mpr (nodup_cons.mpr ⟨hnew q (by simp) hdq, hdir⟩), ?_⟩
      intro r hr hdr hcontra
      rcases mem_cons.mp (hperm.mem_iff.mp hcontra) with he | he
      · exact hbase hdq r hr hdr he
      · exact hmem r hr hdr he
    have step : mid.names.Nodup ∧ ∀ r ∈ rest, Filepath.dir r = pathOf R → base r ∉ mid.names := by
      cases hadds with
      | elsewhere => exact ⟨hdir, hmem⟩
      | file hd he =>
        apply hadd hd
        simp only [Directory.names, map_append, map_cons, map_nil, append_assoc]
        exact perm_middle
      | directory hd he hsub =>
        apply hadd hd
        simp only [Directory.names, map_append, map_cons, map_nil,
          ← append_assoc]
        exact perm_append_singleton _ _
      | ignored => exact ⟨hdir, hmem⟩
    exact ih (fun r hr => hpaths r (by simp [hr])) hroot' hnodup step.1 step.2 hok

lemma completed_names_nodup (hdir : dir.names.Nodup) : (completed h p root dir).names.Nodup := by
  rw [completed, addSynthetic]
  split
  · rename_i hc
    simp [hc.1, Directory.names]
  · exact hdir

lemma collectEntries_ok (hfound : ∀ q ∈ rest, entryAt fs p q ≠ none) :
    ∃ r, collectEntries h fs p root rest dir vis = .ok r := by
  induction rest generalizing root dir vis with
  | nil => exact ⟨_, rfl⟩
  | cons q rest ih =>
    have ih' := fun root dir vis => @ih root dir vis fun q hq => hfound q (by simp [hq])
    rw [collectEntries]
    split_ifs with hdir
    · exact ih' root dir vis
    · cases he : entryAt fs p q with
      | none => exact absurd he (hfound q (by simp))
      | some e =>
        cases e with
        | dir =>
          obtain ⟨⟨sub, below⟩, hsub⟩ := ih' q {} []
          simp only [hsub]
          exact ih' root _ _
        | regular content x => exact ih' root _ _
        | symlink target => exact ih' root _ _
        | other => exact ih' root _ _

/-- The walk looks up the paths of the list and nothing else. -/
lemma collectEntries_congr {fs₂ : FileSystem}
    (hsame : ∀ q ∈ rest, entryAt fs p q = entryAt fs₂ p q) :
    collectEntries h fs p root rest dir vis = collectEntries h fs₂ p root rest dir vis := by
  induction rest generalizing root dir vis with
  | nil => rfl
  | cons q rest ih =>
    have ih' := fun root dir vis => @ih root dir vis fun q hq => hsame q (by simp [hq])
    rw [collectEntries, collectEntries, ← hsame q (by simp)]
    simp only [ih']

end Collect

/-! ### What a message describes -/

/-- The file with these names below the directory of a digest. -/
inductive FileAt (h : Hashing) : Digest → List GoString → GoString → Bool → Prop
  | here {dir : Directory} {n content : GoString} {x : Bool} :
      ⟨n, h.compute content, x⟩ ∈ dir.files → FileAt h (h.directory dir) [n] content x
  | inside {dir : Directory} {n : GoString} {d : Digest} {ns : List GoString} {content : GoString}
      {x : Bool} : ⟨n, d⟩ ∈ dir.directories → FileAt h d ns content x →
      FileAt h (h.directory dir) (n :: ns) content x

/-- The directories below the directory of a digest, itself included. -/
inductive Below (h : Hashing) : Digest → Digest → Prop
  | refl (d : Digest) : Below h d d
  | step {dir : Directory} {n : GoString} {d d' : Digest} :
      ⟨n, d⟩ ∈ dir.directories → Below h d d' → Below h (h.directory dir) d'

lemma fileAt_iff {h : Hashing} : FileAt h (h.directory dir) ns content x ↔
      (∃ n, ns = [n] ∧ ⟨n, h.compute content, x⟩ ∈ dir.files) ∨
      ∃ n d ns', ns = n :: ns' ∧ ⟨n, d⟩ ∈ dir.directories ∧ FileAt h d ns' content x := by
  constructor
  · intro hf
    generalize hd : h.directory dir = d at hf
    cases hf with
    | here hmem => exact .inl ⟨_, rfl, h.directory_injective hd ▸ hmem⟩
    | inside hmem hf => exact .inr ⟨_, _, _, rfl, h.directory_injective hd ▸ hmem, hf⟩
  · rintro (⟨n, rfl, hmem⟩ | ⟨n, d, ns', rfl, hmem, hf⟩)
    · exact .here hmem
    · exact .inside hmem hf

/-- The paths that are visited for the directory `R`: paths of the tree, the root being none
of them when it is `R` itself. -/
structure Visits (R : List GoString) (rest : List GoString) : Prop where
  clean : IsClean R
  paths : ∀ q ∈ rest, IsTreePath q
  root : R = [] → dot ∉ rest

section Describe

variable {h : Hashing} {fs : FileSystem} {p : Project} {R rest : List GoString}
  {dir : Directory} {vis : List UploadableNode}
variable {l₁ l₂ : List GoString}

lemma Visits.dir_eq_iff (hv : Visits R rest) (hq : q ∈ rest) :
    Filepath.dir q = pathOf R ↔ ∃ c, IsClean (R ++ [c]) ∧ q = pathOf (R ++ [c]) :=
  Reninja.dir_eq_iff (hv.paths q hq) hv.clean fun hr he => hv.root hr (he ▸ hq)

lemma Visits.below {c : GoString} (hv : Visits R (l₁ ++ pathOf (R ++ [c]) :: l₂))
    (hc : IsClean (R ++ [c])) : Visits (R ++ [c]) l₂ where
  clean := hc
  paths q hq := hv.paths q (by simp [hq])
  root hr := absurd hr (by simp)

/-- The file that an empty directory on the way to the working directory gets. -/
def Synthetic (p : Project) (cs : List GoString) (content : GoString) (x : Bool) : Prop :=
  ∃ as, cs = as ++ [(".reninja" : GoString)] ∧ OnTheWay p (pathOf as) ∧ content = "reninja" ∧
    x = false

/-- A file that the message describes is a regular file of the list, with directories above
it, or synthetic. -/
lemma FileAt.sound (hv : Visits R rest)
    (hf : FileAt h (h.directory (completed h p (pathOf R) dir)) ns content x)
    (hok : collectEntries h fs p (pathOf R) rest {} [] = .ok (dir, vis)) :
    (IsClean (R ++ ns) ∧ pathOf (R ++ ns) ∈ rest ∧
      entryAt fs p (pathOf (R ++ ns)) = some (.regular content x) ∧
      ∀ as bs, as ≠ [] → bs ≠ [] → ns = as ++ bs →
        entryAt fs p (pathOf (R ++ as)) = some .dir) ∨ Synthetic p (R ++ ns) content x := by
  induction ns generalizing R rest dir vis with
  | nil => rcases fileAt_iff.mp hf with ⟨n, hn, -⟩ | ⟨n, d, ns', hn, -⟩ <;> cases hn
  | cons n ns ih =>
    rcases fileAt_iff.mp hf with ⟨n, ⟨⟩, hmem⟩ | ⟨n, d, ns, ⟨⟩, hmem, hf⟩
    · rcases mem_completed_files.mp hmem with hmem | ⟨-, hway, hn⟩
      · obtain ⟨⟨⟩⟩ | ⟨q, hq, hdir, content', x', he, hn⟩ := (mem_files hok).mp hmem
        obtain ⟨c, hc, rfl⟩ := (hv.dir_eq_iff hq).mp hdir
        simp only [FileNode.mk.injEq, base_pathOf hc] at hn
        obtain ⟨rfl, hcontent, rfl⟩ := hn
        obtain rfl := h.compute_injective hcontent
        refine .inl ⟨hc, hq, he, ?_⟩
        intro as bs ha hb hab
        have := congrArg length hab
        have := length_pos_of_ne_nil ha
        have := length_pos_of_ne_nil hb
        simp only [length_cons, length_nil, length_append] at *
        omega
      · simp only [FileNode.mk.injEq] at hn
        obtain ⟨rfl, hcontent, rfl⟩ := hn
        exact .inr ⟨R, rfl, hway, h.compute_injective hcontent, rfl⟩
    · rw [completed_directories] at hmem
      obtain ⟨⟨⟩⟩ | ⟨l₁, q, l₂, rfl, hdir, he, sub, below, hsub, hn⟩ :=
        (mem_directories hok).mp hmem
      obtain ⟨c, hc, rfl⟩ := (hv.dir_eq_iff (by simp)).mp hdir
      simp only [DirectoryNode.mk.injEq, base_pathOf hc] at hn
      obtain ⟨rfl, rfl⟩ := hn
      have hsame : R ++ [n] ++ ns = R ++ n :: ns := by simp
      rw [← hsame]
      rcases ih (hv.below hc) hf hsub with ⟨hclean, hin, hreg, hdirs⟩ | hsyn
      · refine .inl ⟨hclean, mem_append_right l₁ (mem_cons_of_mem _ hin), hreg, ?_⟩
        intro as bs ha hb hab
        cases as with
        | nil => exact absurd rfl ha
        | cons a as =>
          obtain ⟨rfl, rfl⟩ : n = a ∧ ns = as ++ bs := by simpa using hab
          by_cases has : as = []
          · simpa [has] using he
          · simpa using hdirs as bs has hb rfl
      · exact .inr hsyn

/-- In a sorted list, what is not before an element stands behind it. -/
lemma mem_after (hs : (l₁ ++ a :: l₂).Pairwise fun a b => hierarchicalPathCompare a b ≤ 0)
    (hb : b ∈ l₁ ++ a :: l₂) (hle : hierarchicalPathCompare a b ≤ 0) (hne : b ≠ a) : b ∈ l₂ := by
  rcases mem_append.mp hb with hb | hb
  · have := (pairwise_append.mp hs).2.2 b hb a (by simp)
    exact absurd (compare_antisymm this hle) hne
  · rcases mem_cons.mp hb with hb | hb
    · exact absurd hb hne
    · exact hb

lemma compare_pathOf_append (ha : as ≠ []) :
    hierarchicalPathCompare (pathOf as) (pathOf (as ++ bs)) ≤ 0 := by
  by_cases hb : bs = []
  · subst hb
    simpa using compare_append (pathOf as) []
  · rw [pathOf_of_ne_nil ha, pathOf_of_ne_nil (by simp [ha]), joinComponents_append ha hb]
    exact compare_append _ _

/-- A regular file is described if it and everything above it is in a sorted list, and what is
above it is a directory. -/
lemma FileAt.complete (hv : Visits R rest)
    (hs : rest.Pairwise fun a b => hierarchicalPathCompare a b ≤ 0)
    (hfound : ∀ q ∈ rest, entryAt fs p q ≠ none) (hns : ns ≠ []) (hclean : IsClean (R ++ ns))
    (hmem : ∀ as bs, as ≠ [] → ns = as ++ bs → pathOf (R ++ as) ∈ rest)
    (hdirs : ∀ as bs, as ≠ [] → bs ≠ [] → ns = as ++ bs →
      entryAt fs p (pathOf (R ++ as)) = some .dir)
    (hreg : entryAt fs p (pathOf (R ++ ns)) = some (.regular content x))
    (hok : collectEntries h fs p (pathOf R) rest {} [] = .ok (dir, vis)) :
    FileAt h (h.directory (completed h p (pathOf R) dir)) ns content x := by
  induction ns generalizing R rest dir vis with
  | nil => exact absurd rfl hns
  | cons n ns ih =>
    have hsame : ∀ as, R ++ [n] ++ as = R ++ (n :: as) := by simp
    have hn : IsClean (R ++ [n]) := by
      rw [← hsame] at hclean
      exact hclean.left
    have hin : pathOf (R ++ [n]) ∈ rest := hmem [n] ns (by simp) (by simp)
    by_cases hns' : ns = []
    · subst hns'
      refine .here (mem_completed_files.mpr (.inl ((mem_files hok).mpr
        (.inr ⟨_, hin, dir_pathOf hn, content, x, hreg, ?_⟩))))
      rw [base_pathOf hn]
    · obtain ⟨l₁, l₂, rfl⟩ := append_of_mem hin
      have hfound' : ∀ q ∈ l₂, entryAt fs p q ≠ none := fun q hq => hfound q (by simp [hq])
      obtain ⟨⟨sub, below⟩, hsub⟩ :
          ∃ r, collectEntries h fs p (pathOf (R ++ [n])) l₂ {} [] = .ok r :=
        collectEntries_ok hfound'
      refine .inside (by
        rw [completed_directories]
        exact (mem_directories hok).mpr (.inr ⟨l₁, _, l₂, rfl, dir_pathOf hn,
          hdirs [n] ns (by simp) hns' (by simp), sub, below, hsub, by rw [base_pathOf hn]⟩))
        (ih (hv.below hn) ?_ hfound' hns' (by rwa [hsame]) ?_ ?_ ?_ hsub)
      · exact (pairwise_cons.mp (pairwise_append.mp hs).2.1).2
      · intro as bs ha hab
        have hmem' := hmem (n :: as) bs (by simp) (by simp [hab])
        rw [← hsame as] at hmem'
        refine mem_after hs hmem' (compare_pathOf_append (by simp)) fun heq => ha ?_
        have hall : IsClean (R ++ [n] ++ as) := by
          rw [hab, ← cons_append, ← append_assoc, ← hsame] at hclean
          exact hclean.left
        simpa using pathOf_injOn hall hn heq
      · intro as bs ha hb hab
        rw [hsame]
        exact hdirs (n :: as) bs (by simp) hb (by simp [hab])
      · rwa [hsame]

lemma Below.names_nodup (hv : Visits R rest) (hnodup : rest.Nodup) {d' : Digest}
    {dir' : Directory} (hok : collectEntries h fs p (pathOf R) rest {} [] = .ok (dir, vis))
    (hbelow : Below h (h.directory (completed h p (pathOf R) dir)) d')
    (hd' : d' = h.directory dir') : dir'.names.Nodup := by
  generalize hd : h.directory (completed h p (pathOf R) dir) = d at hbelow
  induction hbelow generalizing R rest dir vis with
  | refl d =>
    obtain rfl := h.directory_injective (hd.trans hd')
    exact completed_names_nodup (Reninja.names_nodup hv.clean hv.paths hv.root hnodup
      (by simp [Directory.names]) (by simp [Directory.names]) hok)
  | step hmem _ ih =>
    obtain rfl := h.directory_injective hd
    rw [completed_directories] at hmem
    obtain ⟨⟨⟩⟩ | ⟨l₁, q, l₂, rfl, hdir, -, sub, below, hsub, hn⟩ :=
      (mem_directories hok).mp hmem
    obtain ⟨c, hc, rfl⟩ := (hv.dir_eq_iff (by simp)).mp hdir
    simp only [DirectoryNode.mk.injEq] at hn
    obtain ⟨-, rfl⟩ := hn
    have hnodup' : l₂.Nodup := (nodup_cons.mp (nodup_append.mp hnodup).2.1).2
    exact ih (hv.below hc) hnodup' hsub hd' rfl

end Describe

/-! ### The sorted list -/

section Sorted

variable {wd : GoString} {files files₁ files₂ : List GoString} {q : GoString}
variable {cs : List GoString}

def AreFilePaths (files : List GoString) : Prop :=
  ∀ r ∈ files, ∃ cs, cs ≠ [] ∧ IsClean cs ∧ r = pathOf cs

/-- The directories that are in every tree: the working directory and those above it. -/
def wdPaths (wd : GoString) : List GoString := workingDirectories wd.length wd

lemma areFilePaths_workingDirectories (n : Nat) (hcs : IsClean cs) :
    AreFilePaths (workingDirectories n (pathOf cs)) := by
  induction n generalizing cs with
  | zero => simp [AreFilePaths, workingDirectories]
  | succ n ih =>
    rw [workingDirectories]
    split
    · simp [AreFilePaths]
    · rename_i hne
      intro r hr
      rcases mem_cons.mp hr with rfl | hr
      · refine ⟨cs, ?_, hcs, rfl⟩
        rintro rfl
        exact hne (.inl rfl)
      · rcases eq_nil_or_concat cs with rfl | ⟨as, c, rfl⟩
        · exact absurd (.inl rfl) hne
        · rw [concat_eq_append] at hcs hr
          rw [dir_pathOf hcs] at hr
          exact ih hcs.left r hr

lemma areFilePaths_wdPaths {p : Project} (hcwd : isAbs p.cwd = true) :
    AreFilePaths (wdPaths p.workingDirectory) := by
  unfold Project.workingDirectory
  cases hrel : rel p.root p.cwd with
  | error e => simp [AreFilePaths, wdPaths, workingDirectories]
  | ok wd =>
    obtain ⟨cs, hcs, rfl⟩ := rel_isClean hcwd hrel
    simp only
    split
    · simp [AreFilePaths, wdPaths, workingDirectories]
    · exact areFilePaths_workingDirectories _ hcs

lemma mem_expandTree (hfiles : AreFilePaths files) :
    q ∈ expandTree wd files ↔
      q = dot ∨ (∃ r ∈ files, q = r ∨ q ∈ subPaths r) ∨ q ∈ wdPaths wd := by
  have hsub : ∀ r ∈ files, [] ∉ subPaths r := by
    intro r hr hmem
    obtain ⟨cs, -, hcs, rfl⟩ := hfiles r hr
    obtain ⟨as, bs, ha, -, rfl, heq⟩ := (mem_subPaths_pathOf hcs).mp hmem
    rw [pathOf_of_ne_nil ha] at heq
    exact ha (joinComponents_injOn .nil hcs.left (joinComponents_nil.trans heq)).symm
  rw [expandTree, (perm_insertionSort _ _).mem_iff, treePaths, mem_dedup]
  simp only [wdPaths, cons_append, mem_cons, mem_flatMap, mem_append,
    mem_filter, decide_eq_true_eq, not_mem_nil, or_false]
  apply or_congr_right
  apply or_congr_left
  constructor
  · rintro ⟨r, hr, ⟨hq, -⟩ | hq⟩
    · exact ⟨r, hr, .inr hq⟩
    · exact ⟨r, hr, .inl hq⟩
  · rintro ⟨r, hr, hq | hq⟩
    · exact ⟨r, hr, .inr hq⟩
    · exact ⟨r, hr, .inl ⟨hq, fun he => hsub r hr (he ▸ hq)⟩⟩

lemma pathOf_mem_expandTree (hfiles : AreFilePaths files) (ha : as ≠ [])
    (hclean : IsClean (as ++ bs)) (hmem : pathOf (as ++ bs) ∈ files) :
    pathOf as ∈ expandTree wd files := by
  refine (mem_expandTree hfiles).mpr (.inr (.inl ⟨_, hmem, ?_⟩))
  by_cases hb : bs = []
  · simp [hb]
  · exact .inr ((mem_subPaths_pathOf hclean).mpr ⟨as, bs, ha, hb, rfl, rfl⟩)

lemma expandTree_pairwise (wd : GoString) (files : List GoString) :
    (expandTree wd files).Pairwise fun a b => hierarchicalPathCompare a b ≤ 0 := by
  have : Std.Total fun a b : GoString => hierarchicalPathCompare a b ≤ 0 := ⟨compare_total⟩
  have : IsTrans GoString fun a b => hierarchicalPathCompare a b ≤ 0 :=
    ⟨fun _ _ _ => compare_trans⟩
  exact pairwise_insertionSort _ _

lemma expandTree_nodup (wd : GoString) (files : List GoString) : (expandTree wd files).Nodup :=
  (perm_insertionSort _ _).nodup_iff.mpr (nodup_dedup _)

lemma expandTree_congr (hsame : ∀ r, r ∈ files₁ ↔ r ∈ files₂) :
    expandTree wd files₁ = expandTree wd files₂ := by
  have hperm : (expandTree wd files₁).Perm (expandTree wd files₂) := by
    rw [perm_ext_iff_of_nodup (expandTree_nodup _ _) (expandTree_nodup _ _)]
    intro q
    simp only [expandTree, treePaths, (perm_insertionSort _ _).mem_iff, mem_dedup,
      cons_append, mem_cons, mem_append, mem_flatMap, hsame]
  exact List.Perm.eq_of_pairwise (fun _ _ _ _ => compare_antisymm) (expandTree_pairwise _ _)
    (expandTree_pairwise _ _) hperm

lemma expandTree_isTreePath (hfiles : AreFilePaths files) (hwd : AreFilePaths (wdPaths wd)) :
    ∀ q ∈ expandTree wd files, IsTreePath q := by
  intro q hq
  rcases (mem_expandTree hfiles).mp hq with rfl | ⟨r, hr, hq⟩ | hq
  · exact ⟨[], .nil, rfl⟩
  · obtain ⟨cs, -, hcs, rfl⟩ := hfiles r hr
    rcases hq with rfl | hq
    · exact ⟨cs, hcs, rfl⟩
    · obtain ⟨as, bs, -, -, rfl, rfl⟩ := (mem_subPaths_pathOf hcs).mp hq
      exact ⟨as, hcs.left, rfl⟩
  · obtain ⟨cs, -, hcs, rfl⟩ := hwd q hq
    exact ⟨cs, hcs, rfl⟩

/-- A name starts before the dot when its first byte is smaller. -/
def StartsBeforeDot (r : GoString) : Prop := ∃ b ∈ r.head?, b < 46

instance (r : GoString) : Decidable (StartsBeforeDot r) :=
  inferInstanceAs (Decidable (∃ b ∈ r.head?, b < 46))

lemma exists_head (hcs : cs ≠ []) (hclean : IsClean cs) : ∃ b t, pathOf cs = b :: t ∧ b ≠ sep := by
  have habs := hclean.not_isAbs
  rw [pathOf_of_ne_nil hcs]
  cases hj : joinComponents cs with
  | nil => exact absurd hj (hclean.joinComponents_ne_nil hcs)
  | cons b t => exact ⟨b, t, rfl, by simpa [hj, isAbs] using habs⟩

lemma compare_dot (hcs : cs ≠ []) (hclean : IsClean cs) :
    hierarchicalPathCompare dot (pathOf cs) ≤ 0 ↔ ¬ StartsBeforeDot (pathOf cs) := by
  obtain ⟨b, t, heq, hb⟩ := exists_head hcs hclean
  have hnil : hierarchicalPathCompare [] t ≤ 0 := by simp [hierarchicalPathCompare]
  rw [heq, dot, compare_cons]
  have hrank : rank 46 < rank b ↔ 46 < b := by
    simp only [rank, if_neg hb, if_neg (show (46 : UInt8) ≠ sep by decide),
      UInt8.lt_iff_toNat_lt]
    omega
  rw [hrank]
  simp only [hnil, and_true, StartsBeforeDot, head?_cons, Option.mem_some_iff,
    exists_eq_left', UInt8.not_lt]
  exact (UInt8.le_iff_lt_or_eq).symm

/-- What comes before the root in the order makes everything below it do so. -/
lemma startsBeforeDot_of_mem_subPaths {r : GoString} (hq : q ∈ subPaths r) (hne : q ≠ [])
    (hstart : StartsBeforeDot q) : StartsBeforeDot r := by
  obtain ⟨u, rfl⟩ := mem_subPaths.mp hq
  obtain ⟨b, hb, hlt⟩ := hstart
  refine ⟨b, ?_, hlt⟩
  cases q with
  | nil => exact absurd rfl hne
  | cons c q => simpa using hb

/-- The head of the sorted list is the root exactly when no path of a file and no directory on
the way to the working directory starts before the dot. -/
lemma expandTree_head (hfiles : AreFilePaths files) (hwd : AreFilePaths (wdPaths wd)) :
    (expandTree wd files).head? = some dot ↔
      (∀ r ∈ files, ¬ StartsBeforeDot r) ∧ ∀ q ∈ wdPaths wd, ¬ StartsBeforeDot q := by
  have hdot : dot ∈ expandTree wd files := (mem_expandTree hfiles).mpr (.inl rfl)
  obtain ⟨a, rest, heq⟩ := exists_cons_of_ne_nil (ne_nil_of_mem hdot)
  have hsorted := expandTree_pairwise wd files
  rw [heq] at hsorted hdot ⊢
  have hle : ∀ b ∈ rest, hierarchicalPathCompare a b ≤ 0 := (pairwise_cons.mp hsorted).1
  simp only [head?_cons, Option.some.injEq]
  constructor
  · rintro rfl
    have hafter : ∀ r ∈ expandTree wd files, (∃ cs, cs ≠ [] ∧ IsClean cs ∧ r = pathOf cs) →
        ¬ StartsBeforeDot r := by
      rintro r hr ⟨cs, hcs, hclean, rfl⟩
      rw [heq] at hr
      rcases mem_cons.mp hr with h | h
      · exact absurd h (hclean.pathOf_ne_dot hcs)
      · exact (compare_dot hcs hclean).mp (hle _ h)
    exact ⟨fun r hr => hafter r ((mem_expandTree hfiles).mpr (.inr (.inl ⟨r, hr, .inl rfl⟩)))
      (hfiles r hr), fun q hq => hafter q ((mem_expandTree hfiles).mpr (.inr (.inr hq))) (hwd q hq)⟩
  · rintro ⟨hgood, hgoodwd⟩
    rcases mem_cons.mp hdot with h | h
    · exact h.symm
    · -- the head is not after the root, and no path of the tree is before it
      have hbefore : ∀ cs, cs ≠ [] → IsClean cs → a = pathOf cs → ¬ StartsBeforeDot a →
          a = dot := by
        rintro cs hcs hclean rfl hstart
        exact compare_antisymm (hle dot h) ((compare_dot hcs hclean).mpr hstart)
      have ha : a ∈ expandTree wd files := by simp [heq]
      rcases (mem_expandTree hfiles).mp ha with h' | ⟨r, hr, ha⟩ | ha
      · exact h'
      · obtain ⟨cs, hcs, hclean, rfl⟩ := hfiles r hr
        rcases ha with rfl | ha
        · exact hbefore cs hcs hclean rfl (hgood _ hr)
        · obtain ⟨as, bs, has, -, rfl, rfl⟩ := (mem_subPaths_pathOf hclean).mp ha
          refine hbefore as has hclean.left rfl fun hstart => hgood _ hr
            (startsBeforeDot_of_mem_subPaths ha ?_ hstart)
          rw [pathOf_of_ne_nil has]
          exact hclean.left.joinComponents_ne_nil has
      · obtain ⟨cs, hcs, hclean, rfl⟩ := hwd a ha
        exact hbefore cs hcs hclean rfl (hgoodwd _ ha)

end Sorted

/-! ### The whole tree -/

/-- A file of the project: its path relative to the root, its content and whether its owner
may execute it. -/
structure ProjectFile where
  path : GoString
  content : GoString
  ownerExecutable : Bool
  deriving DecidableEq, Repr

def Names (fs : FileSystem) (p : Project) (f : GoString) (t : ProjectFile) : Prop :=
  cleanPath p f = .ok t.path ∧ t.path ≠ dot ∧
    entryAt fs p t.path = some (.regular t.content t.ownerExecutable)

def fileSet (fs : FileSystem) (p : Project) (files : List GoString) : Set ProjectFile :=
  { t | ∃ f ∈ files, Names fs p f t }

/-- The directory of a digest holds exactly the files of a set, each once. -/
structure Describes (h : Hashing) (d : Digest) (S : Set ProjectFile) : Prop where
  exact : ∀ t, t ∈ S ↔
    ∃ ns, FileAt h d ns t.content t.ownerExecutable ∧ t.path = joinComponents ns
  once : ∀ dir, Below h d (h.directory dir) → dir.names.Nodup

/-- No path starts before the dot, and every directory on the way to a file is a directory
and not a symbolic link to one. -/
def Ordinary (fs : FileSystem) (p : Project) (files : List GoString) : Prop :=
  ∀ f ∈ files, ∀ r, cleanPath p f = .ok r →
    ¬ StartsBeforeDot r ∧ ∀ q ∈ subPaths r, entryAt fs p q = some .dir

def OrdinaryProject (fs : FileSystem) (p : Project) : Prop :=
  ∀ q ∈ wdPaths p.workingDirectory, ¬ StartsBeforeDot q ∧ entryAt fs p q = some .dir

section Whole

variable {h : Hashing} {fs fs₁ fs₂ : FileSystem} {p : Project}
  {files files₁ files₂ : List GoString} {d d₁ d₂ : Digest} {nodes : List UploadableNode}
variable {cleaned : List GoString}
variable {vis : List UploadableNode} {rest : List GoString}

lemma relComponents_self (cs : List GoString) : relComponents cs cs = some [] := by
  induction cs with
  | nil => rfl
  | cons c cs ih => simpa [relComponents] using ih

lemma workingDirectory_root (hcwd : p.cwd = p.root) : p.workingDirectory = [] := by
  simp [Project.workingDirectory, hcwd, rel, relComponents_self]

lemma ordinaryProject_root (hcwd : p.cwd = p.root) : OrdinaryProject fs p := by
  simp [OrdinaryProject, workingDirectory_root hcwd, wdPaths, workingDirectories]

lemma not_onTheWay_root (hcwd : p.cwd = p.root) (root : GoString) : ¬ OnTheWay p root :=
  fun hway => hway.1 (workingDirectory_root hcwd)

lemma isAbs_join (ha : isAbs a = true) : isAbs (Filepath.join a b) = true := by
  have hne : a ≠ [] := by
    rintro rfl
    cases ha
  have habs : isAbs (a ++ sep :: b) = true := by rw [isAbs_append hne, ha]
  rw [Filepath.join, if_pos hne, clean, if_pos habs]
  rfl

lemma cleanPath_isClean (hcwd : isAbs p.cwd = true) {f r : GoString}
    (hf : cleanPath p f = .ok r) (hr : r ≠ dot) :
    ∃ cs, cs ≠ [] ∧ IsClean cs ∧ r = pathOf cs := by
  have habs : isAbs (p.absolute f) = true := by
    unfold Project.absolute
    split
    · assumption
    · exact isAbs_join hcwd
  obtain ⟨cs, hcs, rfl⟩ := rel_isClean habs hf
  refine ⟨cs, ?_, hcs, rfl⟩
  rintro rfl
  exact hr rfl

lemma cleanPaths_ok (hf : ∀ f ∈ files, ∃ r, cleanPath p f = .ok r) :
    ∃ cleaned, cleanPaths p files = .ok cleaned ∧
      ∀ r, r ∈ cleaned ↔ ∃ f ∈ files, cleanPath p f = .ok r := by
  induction files with
  | nil => exact ⟨[], rfl, by simp⟩
  | cons f files ih =>
    obtain ⟨r, hr⟩ := hf f (by simp)
    obtain ⟨cleaned, hc, hmem⟩ := ih fun g hg => hf g (by simp [hg])
    refine ⟨r :: cleaned, ?_, ?_⟩
    · rw [cleanPaths] at hc ⊢
      rw [mapM_cons, hr, hc]
      rfl
    · intro s
      simp only [mem_cons, hmem, exists_eq_or_imp, hr, Except.ok.injEq]
      exact or_congr_left eq_comm

lemma hashDirectoryTree_ok_iff (hc : cleanPaths p files = .ok cleaned) {a : GoString}
    (hT : expandTree p.workingDirectory cleaned = a :: rest) :
    (∃ nodes, hashDirectoryTree h fs p files = .ok (d, nodes)) ↔
      ∃ dir vis, collectEntries h fs p a rest {} [] = .ok (dir, vis) ∧
        d = h.directory (completed h p a dir) := by
  simp only [hashDirectoryTree, hc, computeDirTree, hT, headD_cons, tail_cons]
  cases collectEntries h fs p a rest {} [] with
  | error e => simp
  | ok r =>
    obtain ⟨dir, vis⟩ := r
    simp only [Except.ok.injEq, Prod.mk.injEq, exists_and_left, exists_eq', and_true]
    constructor
    · rintro rfl
      exact ⟨dir, vis, ⟨rfl, rfl⟩, rfl⟩
    · rintro ⟨_, _, ⟨rfl, -⟩, rfl⟩
      rfl

lemma exists_cleaned (hcwd : isAbs p.cwd = true) (hf : ∀ f ∈ files, ∃ t, Names fs p f t) :
    ∃ cleaned, cleanPaths p files = .ok cleaned ∧ AreFilePaths cleaned ∧
      (∀ r, r ∈ cleaned ↔ ∃ f ∈ files, cleanPath p f = .ok r) ∧
      ∀ r, r ∈ cleaned ↔ ∃ t ∈ fileSet fs p files, t.path = r := by
  obtain ⟨cleaned, hc, hmem⟩ := cleanPaths_ok fun f hfm =>
    let ⟨t, ht⟩ := hf f hfm
    ⟨t.path, ht.1⟩
  refine ⟨cleaned, hc, ?_, hmem, ?_⟩
  · intro r hr
    obtain ⟨f, hfm, hfr⟩ := (hmem r).mp hr
    obtain ⟨t, ht, hne, -⟩ := hf f hfm
    obtain rfl : t.path = r := by simpa [ht] using hfr
    exact cleanPath_isClean hcwd ht hne
  · intro r
    rw [hmem]
    constructor
    · rintro ⟨f, hfm, hfr⟩
      obtain ⟨t, ht⟩ := hf f hfm
      exact ⟨t, ⟨f, hfm, ht⟩, by simpa [ht.1] using hfr⟩
    · rintro ⟨t, ⟨f, hfm, ht⟩, rfl⟩
      exact ⟨f, hfm, ht.1⟩

lemma entryAt_cases (hpaths : AreFilePaths cleaned)
    (hmem : ∀ r, r ∈ cleaned ↔ ∃ f ∈ files, cleanPath p f = .ok r) (hproj : OrdinaryProject fs p)
    (hord : Ordinary fs p files) (hq : q ∈ expandTree p.workingDirectory cleaned) :
    q = dot ∨ q ∈ cleaned ∨ entryAt fs p q = some .dir := by
  rcases (mem_expandTree hpaths).mp hq with hq | ⟨r, hr, rfl | hq⟩ | hq
  · exact .inl hq
  · exact .inr (.inl hr)
  · obtain ⟨f, hfm, hfr⟩ := (hmem r).mp hr
    exact .inr (.inr ((hord f hfm r hfr).2 q hq))
  · exact .inr (.inr (hproj q hq).2)

lemma exists_tail (hcwd : isAbs p.cwd = true) (hpaths : AreFilePaths cleaned)
    (hmem : ∀ r, r ∈ cleaned ↔ ∃ f ∈ files, cleanPath p f = .ok r) (hproj : OrdinaryProject fs p)
    (hord : Ordinary fs p files) :
    ∃ rest, expandTree p.workingDirectory cleaned = dot :: rest ∧ dot ∉ rest ∧
      Visits [] rest := by
  have hwd := areFilePaths_wdPaths hcwd
  have hhead : (expandTree p.workingDirectory cleaned).head? = some dot := by
    refine (expandTree_head hpaths hwd).mpr ⟨fun r hr => ?_, fun q hq => (hproj q hq).1⟩
    obtain ⟨f, hfm, hfr⟩ := (hmem r).mp hr
    exact (hord f hfm r hfr).1
  have hnodup := expandTree_nodup p.workingDirectory cleaned
  have htree := expandTree_isTreePath hpaths hwd
  cases hT : expandTree p.workingDirectory cleaned with
  | nil => simp [hT] at hhead
  | cons a rest =>
    obtain rfl : a = dot := by simpa [hT] using hhead
    rw [hT] at hnodup htree
    have hdot := (nodup_cons.mp hnodup).1
    exact ⟨rest, rfl, hdot, .nil, fun q hq => htree q (by simp [hq]), fun _ => hdot⟩

lemma exists_digest (hcwd : isAbs p.cwd = true) (hf : ∀ f ∈ files, ∃ t, Names fs p f t)
    (hproj : OrdinaryProject fs p) (hord : Ordinary fs p files) :
    ∃ d nodes, hashDirectoryTree h fs p files = .ok (d, nodes) ∧
      (∀ t ∈ fileSet fs p files,
        ∃ ns, FileAt h d ns t.content t.ownerExecutable ∧ t.path = joinComponents ns) ∧
      (∀ ns content x, FileAt h d ns content x →
        ⟨joinComponents ns, content, x⟩ ∈ fileSet fs p files ∨ Synthetic p ns content x) ∧
      ∀ dir, Below h d (h.directory dir) → dir.names.Nodup := by
  obtain ⟨cleaned, hc, hpaths, hmem, hset⟩ := exists_cleaned hcwd hf
  obtain ⟨rest, hT, hdot, hv⟩ := exists_tail hcwd hpaths hmem hproj hord
  have hsorted := expandTree_pairwise p.workingDirectory cleaned
  have hnodup := expandTree_nodup p.workingDirectory cleaned
  rw [hT] at hsorted hnodup
  -- a path behind the root is a listed file or a directory
  have hcases : ∀ q ∈ rest, (∃ t ∈ fileSet fs p files, t.path = q) ∨
      entryAt fs p q = some .dir := by
    intro q hq
    rcases entryAt_cases hpaths hmem hproj hord (show q ∈ expandTree _ cleaned by simp [hT, hq])
      with rfl | hq' | hq'
    · exact absurd hq hdot
    · exact .inl ((hset q).mp hq')
    · exact .inr hq'
  have hfound : ∀ q ∈ rest, entryAt fs p q ≠ none := by
    intro q hq
    rcases hcases q hq with ⟨t, ⟨f, -, ht⟩, rfl⟩ | hd
    · simp [ht.2.2]
    · simp [hd]
  obtain ⟨⟨dir, vis⟩, hok⟩ : ∃ r, collectEntries h fs p (pathOf []) rest {} [] = .ok r :=
    collectEntries_ok hfound
  obtain ⟨nodes, hnodes⟩ := (hashDirectoryTree_ok_iff (h := h) hc hT).mpr ⟨dir, vis, hok, rfl⟩
  refine ⟨_, nodes, hnodes, ?_, ?_, fun dir' hb => hb.names_nodup (R := []) hv
    (nodup_cons.mp hnodup).2 hok rfl⟩
  · rintro t ⟨f, hfm, ht⟩
    obtain ⟨cs, hne, hclean, hpath⟩ := cleanPath_isClean hcwd ht.1 ht.2.1
    have hlisted : pathOf cs ∈ cleaned := (hmem _).mpr ⟨f, hfm, hpath ▸ ht.1⟩
    refine ⟨cs, ?_, hpath.trans (pathOf_of_ne_nil hne)⟩
    refine FileAt.complete (R := []) hv (pairwise_cons.mp hsorted).2 hfound hne hclean ?_ ?_
      (by simpa [← hpath] using ht.2.2) hok
    · rintro as bs ha rfl
      have hmemT : pathOf as ∈ expandTree p.workingDirectory cleaned :=
        pathOf_mem_expandTree hpaths ha hclean hlisted
      rw [hT] at hmemT
      exact (mem_cons.mp hmemT).resolve_left (hclean.left.pathOf_ne_dot ha)
    · rintro as bs ha hb rfl
      exact (hord f hfm _ (hpath ▸ ht.1)).2 _
        ((mem_subPaths_pathOf hclean).mpr ⟨as, bs, ha, hb, rfl, rfl⟩)
  · intro ns content x hfile
    rcases hfile.sound (R := []) hv hok with ⟨-, hmemr, hreg, -⟩ | hsyn
    · simp only [nil_append] at hmemr hreg
      have hne : ns ≠ [] := by
        rintro rfl
        exact hdot hmemr
      rcases hcases _ hmemr with ⟨t, ⟨f, hfm, hclean, hnd, -⟩, hp⟩ | hd
      · rw [hp, pathOf_of_ne_nil hne] at hclean hnd
        rw [pathOf_of_ne_nil hne] at hreg
        exact .inl ⟨f, hfm, hclean, hnd, hreg⟩
      · rw [hd] at hreg
        cases hreg
    · exact .inr hsyn

/-- An ordinary list in a project whose root is the working directory gives a digest that
describes its files. -/
lemma describes_of_ordinary (hroot : isAbs p.root = true) (hcwd : p.cwd = p.root)
    (hf : ∀ f ∈ files, ∃ t, Names fs p f t) (hord : Ordinary fs p files) :
    ∃ d nodes, hashDirectoryTree h fs p files = .ok (d, nodes) ∧
      Describes h d (fileSet fs p files) := by
  obtain ⟨d, nodes, hhash, hall, honly, honce⟩ := exists_digest (h := h) (hcwd ▸ hroot) hf
    (ordinaryProject_root hcwd) hord
  refine ⟨d, nodes, hhash, fun t => ⟨hall t, ?_⟩, honce⟩
  rintro ⟨ns, hfile, hpath⟩
  obtain ⟨path, content, x⟩ := t
  obtain rfl : path = joinComponents ns := hpath
  rcases honly ns content x hfile with hmem | ⟨as, -, hway, -⟩
  · exact hmem
  · exact absurd hway (not_onTheWay_root hcwd _)

/-- In a project whose root is the working directory, a file that the message describes is a
regular file of the list. -/
lemma FileAt.sound_root (hcwd : p.cwd = p.root) {R rest : List GoString} (hv : Visits R rest)
    (hf : FileAt h (h.directory (completed h p (pathOf R) dir)) ns content x)
    (hok : collectEntries h fs p (pathOf R) rest {} [] = .ok (dir, vis)) :
    IsClean (R ++ ns) ∧ pathOf (R ++ ns) ∈ rest ∧
      entryAt fs p (pathOf (R ++ ns)) = some (.regular content x) ∧
      ∀ as bs, as ≠ [] → bs ≠ [] → ns = as ++ bs →
        entryAt fs p (pathOf (R ++ as)) = some .dir :=
  (hf.sound hv hok).resolve_right fun ⟨_, _, hway, _⟩ => not_onTheWay_root hcwd _ hway

/-- A digest that describes the files of a list was made with the root as the head of the
sorted list: what is described lies below the head, and the longest path does not lie below
any other path of the tree. -/
lemma head_of_describes (hroot : isAbs p.root = true) (hcwd : p.cwd = p.root)
    (hpaths : AreFilePaths cleaned) (hset : ∀ r, r ∈ cleaned ↔ ∃ t ∈ fileSet fs p files, t.path = r)
    {a : GoString} (hT : expandTree p.workingDirectory cleaned = a :: rest)
    (hok : collectEntries h fs p a rest {} [] = .ok (dir, vis))
    (hdesc : Describes h (h.directory (completed h p a dir)) (fileSet fs p files)) : a = dot := by
  by_contra hne
  have hwd : wdPaths p.workingDirectory = [] := by
    rw [workingDirectory_root hcwd]
    rfl
  have htree := expandTree_isTreePath hpaths (areFilePaths_wdPaths (hcwd ▸ hroot))
  obtain ⟨R, hR, rfl⟩ := htree a (by simp [hT])
  have hRne : R ≠ [] := by
    rintro rfl
    exact hne rfl
  have hv : Visits R rest :=
    ⟨hR, fun q hq => htree q (by simp [hT, hq]), fun hr => absurd hr hRne⟩
  have hsome : cleaned ≠ [] := by
    rintro rfl
    rcases (mem_expandTree hpaths).mp (show pathOf R ∈ expandTree p.workingDirectory [] by
      simp [hT]) with h' | ⟨_, h', _⟩ | h'
    · exact hne h'
    · cases h'
    · simp [hwd] at h'
  obtain ⟨r, hr, hmax⟩ := cleaned.toFinset.exists_max_image length
    (by simpa [toFinset_nonempty_iff] using hsome)
  rw [mem_toFinset] at hr
  obtain ⟨t, ht, rfl⟩ := (hset r).mp hr
  obtain ⟨ns, hfile, hpath⟩ := (hdesc.exact t).mp ht
  obtain ⟨hclean, hmem, -⟩ := hfile.sound_root hcwd hv hok
  have hns : ns ≠ [] := by
    rintro rfl
    obtain ⟨cs, hcs, hcn, heq⟩ := hpaths _ hr
    rw [hpath, pathOf_of_ne_nil hcs] at heq
    exact hcs (joinComponents_injOn .nil hcn heq).symm
  have hlong : (pathOf (R ++ ns)).length > t.path.length := by
    rw [pathOf_of_ne_nil (by simp [hns]), joinComponents_append hRne hns, hpath]
    simp only [length_append, length_cons]
    omega
  -- a path of the tree is not longer than the file it leads to
  have hshort : (pathOf (R ++ ns)).length ≤ t.path.length := by
    rcases (mem_expandTree hpaths).mp (show pathOf (R ++ ns) ∈ expandTree _ cleaned by
      rw [hT]
      exact mem_cons_of_mem _ hmem) with h' | ⟨s, hs, hq⟩ | h'
    · exact absurd h' (hclean.pathOf_ne_dot (by simp [hns]))
    · refine le_trans ?_ (hmax s (by simpa using hs))
      rcases hq with hq | hq
      · rw [hq]
      · obtain ⟨u, rfl⟩ := mem_subPaths.mp hq
        simp
    · simp [hwd] at h'
  omega

lemma ordinary_of_describes (hroot : isAbs p.root = true) (hcwd : p.cwd = p.root)
    (hf : ∀ f ∈ files, ∃ t, Names fs p f t)
    (hhash : hashDirectoryTree h fs p files = .ok (d, nodes))
    (hdesc : Describes h d (fileSet fs p files)) : Ordinary fs p files := by
  have hwd := areFilePaths_wdPaths (p := p) (hcwd ▸ hroot)
  obtain ⟨cleaned, hc, hpaths, hmem, hset⟩ := exists_cleaned (hcwd ▸ hroot) hf
  have hdot : dot ∈ expandTree p.workingDirectory cleaned := (mem_expandTree hpaths).mpr (.inl rfl)
  obtain ⟨a, rest, hT⟩ := exists_cons_of_ne_nil (ne_nil_of_mem hdot)
  obtain ⟨dir, vis, hok, rfl⟩ := (hashDirectoryTree_ok_iff hc hT).mp ⟨nodes, hhash⟩
  obtain rfl := head_of_describes hroot hcwd hpaths hset hT hok hdesc
  have hnodup := expandTree_nodup p.workingDirectory cleaned
  rw [hT] at hnodup
  have hv : Visits [] rest :=
    ⟨.nil, fun q hq => expandTree_isTreePath hpaths hwd q (by simp [hT, hq]),
      fun _ => (nodup_cons.mp hnodup).1⟩
  intro f hfm r hfr
  have hr : r ∈ cleaned := (hmem r).mpr ⟨f, hfm, hfr⟩
  refine ⟨((expandTree_head hpaths hwd).mp (by rw [hT]; rfl)).1 r hr, fun q hq => ?_⟩
  obtain ⟨t, ht, rfl⟩ := (hset r).mp hr
  obtain ⟨ns, hfile, hpath⟩ := (hdesc.exact t).mp ht
  obtain ⟨hclean, -, -, hdirs⟩ := hfile.sound_root (R := []) hcwd hv hok
  have hns : t.path = pathOf ns := by
    rw [hpath, pathOf_of_ne_nil]
    rintro rfl
    obtain ⟨cs, hcs, hcn, heq⟩ := hpaths _ hr
    rw [hpath, pathOf_of_ne_nil hcs] at heq
    exact hcs (joinComponents_injOn .nil hcn heq).symm
  rw [hns] at hq
  obtain ⟨as, bs, ha, hb, rfl, rfl⟩ := (mem_subPaths_pathOf hclean).mp hq
  exact hdirs as bs ha hb rfl

lemma digest_congr (hcwd : isAbs p.cwd = true)
    (hf₁ : ∀ f ∈ files₁, ∃ t, Names fs₁ p f t) (hf₂ : ∀ f ∈ files₂, ∃ t, Names fs₂ p f t)
    (hproj₁ : OrdinaryProject fs₁ p) (hproj₂ : OrdinaryProject fs₂ p)
    (hord₁ : Ordinary fs₁ p files₁) (hord₂ : Ordinary fs₂ p files₂)
    (hsame : fileSet fs₁ p files₁ = fileSet fs₂ p files₂) {nodes₁ nodes₂ : List UploadableNode}
    (hhash₁ : hashDirectoryTree h fs₁ p files₁ = .ok (d₁, nodes₁))
    (hhash₂ : hashDirectoryTree h fs₂ p files₂ = .ok (d₂, nodes₂)) : d₁ = d₂ := by
  obtain ⟨cleaned₁, hc₁, hpaths₁, hmem₁, hset₁⟩ := exists_cleaned hcwd hf₁
  obtain ⟨cleaned₂, hc₂, hpaths₂, hmem₂, hset₂⟩ := exists_cleaned hcwd hf₂
  have hmemsame : ∀ r, r ∈ cleaned₁ ↔ r ∈ cleaned₂ := fun r => by rw [hset₁, hset₂, hsame]
  obtain ⟨rest, hT₁, hdot, -⟩ := exists_tail hcwd hpaths₁ hmem₁ hproj₁ hord₁
  have hT₂ := hT₁
  rw [expandTree_congr hmemsame] at hT₂
  obtain ⟨dir₁, vis₁, hok₁, rfl⟩ := (hashDirectoryTree_ok_iff hc₁ hT₁).mp ⟨nodes₁, hhash₁⟩
  obtain ⟨dir₂, vis₂, hok₂, rfl⟩ := (hashDirectoryTree_ok_iff hc₂ hT₂).mp ⟨nodes₂, hhash₂⟩
  -- both file systems agree on every path that is looked up
  have hentry : ∀ q ∈ rest, entryAt fs₁ p q = entryAt fs₂ p q := by
    intro q hq
    by_cases hlisted : q ∈ cleaned₁
    · obtain ⟨t, ht, rfl⟩ := (hset₁ q).mp hlisted
      have ht₂ : t ∈ fileSet fs₂ p files₂ := hsame ▸ ht
      obtain ⟨_, -, -, -, h₁⟩ := ht
      obtain ⟨_, -, -, -, h₂⟩ := ht₂
      rw [h₁, h₂]
    · have hne : q ≠ dot := fun he => hdot (he ▸ hq)
      have h₁ := ((entryAt_cases hpaths₁ hmem₁ hproj₁ hord₁
        (show q ∈ expandTree _ _ by simp [hT₁, hq])).resolve_left hne).resolve_left hlisted
      have h₂ := ((entryAt_cases hpaths₂ hmem₂ hproj₂ hord₂
        (show q ∈ expandTree _ _ by simp [hT₂, hq])).resolve_left hne).resolve_left
          fun hl => hlisted ((hmemsame q).mpr hl)
      rw [h₁, h₂]
  rw [collectEntries_congr hentry, hok₂] at hok₁
  simp only [Except.ok.injEq, Prod.mk.injEq] at hok₁
  rw [hok₁.1]

/-- The root digest of two lists of files of the project is faithful (both describe exactly
their files, and the digests agree exactly when the files do) if and only if both lists are
ordinary. -/
theorem hashDirectoryTree_faithful_iff (h : Hashing) (p : Project)
    (hroot : isAbs p.root = true) (hcwd : p.cwd = p.root) (fs₁ fs₂ : FileSystem)
    (files₁ files₂ : List GoString) (hf₁ : ∀ f ∈ files₁, ∃ t, Names fs₁ p f t)
    (hf₂ : ∀ f ∈ files₂, ∃ t, Names fs₂ p f t) :
    (∃ d₁ nodes₁ d₂ nodes₂, hashDirectoryTree h fs₁ p files₁ = .ok (d₁, nodes₁) ∧
      hashDirectoryTree h fs₂ p files₂ = .ok (d₂, nodes₂) ∧
      Describes h d₁ (fileSet fs₁ p files₁) ∧ Describes h d₂ (fileSet fs₂ p files₂) ∧
      (d₁ = d₂ ↔ fileSet fs₁ p files₁ = fileSet fs₂ p files₂)) ↔
      Ordinary fs₁ p files₁ ∧ Ordinary fs₂ p files₂ := by
  constructor
  · rintro ⟨d₁, nodes₁, d₂, nodes₂, hhash₁, hhash₂, hdesc₁, hdesc₂, -⟩
    exact ⟨ordinary_of_describes hroot hcwd hf₁ hhash₁ hdesc₁,
      ordinary_of_describes hroot hcwd hf₂ hhash₂ hdesc₂⟩
  · rintro ⟨hord₁, hord₂⟩
    obtain ⟨d₁, nodes₁, hhash₁, hdesc₁⟩ := describes_of_ordinary (h := h) hroot hcwd hf₁ hord₁
    obtain ⟨d₂, nodes₂, hhash₂, hdesc₂⟩ := describes_of_ordinary (h := h) hroot hcwd hf₂ hord₂
    refine ⟨d₁, nodes₁, d₂, nodes₂, hhash₁, hhash₂, hdesc₁, hdesc₂, ?_, fun hsame =>
      digest_congr (hcwd ▸ hroot) hf₁ hf₂ (ordinaryProject_root hcwd) (ordinaryProject_root hcwd)
        hord₁ hord₂ hsame hhash₁ hhash₂⟩
    rintro rfl
    ext t
    rw [hdesc₁.exact, hdesc₂.exact]

/-- A project with a source directory, a header and two files whose names start before the
dot. -/
def sampleProject : Project := ⟨"/p", "/p"⟩

def sampleFiles : FileSystem where
  lstat q :=
    if q = "/p/src" then some .dir
    else if q = "/p/src/a.c" then some (.regular "int a;" false)
    else if q = "/p/b.h" then some (.regular "int b;" false)
    else if q = "/p/-o" then some (.regular "minus" false)
    else if q = "/p/+o" then some (.regular "plus" false)
    else none

lemma sampleProject_isAbs : isAbs sampleProject.root = true := by decide +kernel

lemma sampleFiles_names {files : List GoString}
    (hf : ∀ f ∈ files, f = "src/a.c" ∨ f = "b.h") :
    (∀ f ∈ files, ∃ t, Names sampleFiles sampleProject f t) ∧
      Ordinary sampleFiles sampleProject files := by
  have hsrc : cleanPath sampleProject "src/a.c" = .ok "src/a.c" := by decide +kernel
  have hhdr : cleanPath sampleProject "b.h" = .ok "b.h" := by decide +kernel
  constructor
  · intro f hmem
    rcases hf f hmem with rfl | rfl
    · exact ⟨⟨"src/a.c", "int a;", false⟩, hsrc, by decide +kernel, by decide +kernel⟩
    · exact ⟨⟨"b.h", "int b;", false⟩, hhdr, by decide +kernel, by decide +kernel⟩
  · intro f hmem r hr
    rcases hf f hmem with rfl | rfl
    · rw [hsrc, Except.ok.injEq] at hr
      subst hr
      exact ⟨by decide +kernel, by decide +kernel⟩
    · rw [hhdr, Except.ok.injEq] at hr
      subst hr
      exact ⟨by decide +kernel, by decide +kernel⟩

/-- A list and a permutation of it with repetitions have the same faithful digest. -/
theorem hashDirectoryTree_faithful_sample :
    (∀ f ∈ [("src/a.c" : GoString), ("b.h" : GoString)], ∃ t, Names sampleFiles sampleProject f t) ∧
    ∃ d₁ nodes₁ d₂ nodes₂,
      hashDirectoryTree .byCode sampleFiles sampleProject ["src/a.c", "b.h"] = .ok (d₁, nodes₁) ∧
      hashDirectoryTree .byCode sampleFiles sampleProject ["b.h", "src/a.c", "b.h"] =
        .ok (d₂, nodes₂) ∧
      Describes .byCode d₁ (fileSet sampleFiles sampleProject ["src/a.c", "b.h"]) ∧
      Describes .byCode d₂ (fileSet sampleFiles sampleProject ["b.h", "src/a.c", "b.h"]) ∧
      (d₁ = d₂ ↔ fileSet sampleFiles sampleProject ["src/a.c", "b.h"] =
        fileSet sampleFiles sampleProject ["b.h", "src/a.c", "b.h"]) := by
  have h₁ := @sampleFiles_names ["src/a.c", "b.h"] (by simp)
  have h₂ := @sampleFiles_names ["b.h", "src/a.c", "b.h"] (by simp)
  exact ⟨h₁.1, (hashDirectoryTree_faithful_iff .byCode sampleProject sampleProject_isAbs rfl
    sampleFiles sampleFiles _ _ h₁.1 h₂.1).mpr ⟨h₁.2, h₂.2⟩⟩

lemma hash_of_head {f : GoString} (hf : f = "-o" ∨ f = "+o") (h : Hashing) :
    hashDirectoryTree h sampleFiles sampleProject [f] =
      .ok (h.directory {}, [⟨h.directory {}, some {}, .directory⟩]) := by
  have hclean : cleanPaths sampleProject [f] = .ok [f] := by
    rcases hf with rfl | rfl <;> decide +kernel
  have htree : expandTree [] [f] = [f, dot] := by
    rcases hf with rfl | rfl <;> decide +kernel
  have hwd : sampleProject.workingDirectory = [] := by decide +kernel
  have hdot : Filepath.dir dot ≠ f := by
    rcases hf with rfl | rfl <;> decide +kernel
  simp [hashDirectoryTree, hclean, hwd, htree, computeDirTree, collectEntries, hdot, addSynthetic,
    syntheticNodes]

/-- Two files whose names start before the dot get the same digest, that of an empty
directory, which describes neither. -/
theorem hashDirectoryTree_before_dot :
    (∀ f ∈ [("-o" : GoString), ("+o" : GoString)], ∃ t, Names sampleFiles sampleProject f t) ∧
    ∃ d nodes₁ nodes₂,
      hashDirectoryTree .byCode sampleFiles sampleProject ["-o"] = .ok (d, nodes₁) ∧
      hashDirectoryTree .byCode sampleFiles sampleProject ["+o"] = .ok (d, nodes₂) ∧
      fileSet sampleFiles sampleProject ["-o"] ≠ fileSet sampleFiles sampleProject ["+o"] ∧
      ¬ Describes .byCode d (fileSet sampleFiles sampleProject ["-o"]) := by
  have hminus : Names sampleFiles sampleProject "-o" ⟨"-o", "minus", false⟩ :=
    ⟨by decide +kernel, by decide +kernel, by decide +kernel⟩
  have hplus : Names sampleFiles sampleProject "+o" ⟨"+o", "plus", false⟩ :=
    ⟨by decide +kernel, by decide +kernel, by decide +kernel⟩
  refine ⟨?_, _, _, _, hash_of_head (.inl rfl) _, hash_of_head (.inr rfl) _, ?_, ?_⟩
  · intro f hf
    simp only [mem_cons, not_mem_nil, or_false] at hf
    rcases hf with rfl | rfl
    · exact ⟨_, hminus⟩
    · exact ⟨_, hplus⟩
  · intro heq
    have hmem : ⟨"-o", "minus", false⟩ ∈ fileSet sampleFiles sampleProject ["+o"] :=
      heq ▸ ⟨"-o", by simp, hminus⟩
    obtain ⟨f, hf, hn, -⟩ := hmem
    rw [mem_singleton.mp hf, hplus.1] at hn
    exact absurd hn (by decide +kernel)
  · intro hdesc
    obtain ⟨ns, hfile, -⟩ := (hdesc.exact ⟨"-o", "minus", false⟩).mp ⟨"-o", by simp, hminus⟩
    rcases fileAt_iff.mp hfile with ⟨_, _, hmem⟩ | ⟨_, _, _, _, hmem, _⟩ <;> cases hmem

end Whole

end Reninja
