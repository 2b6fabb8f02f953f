import Reninja.Graph.Basic

/-!
# Memoised hashes of files

`HashFile` of `internal/file_hasher` opens a file, asks for its status, and looks for a hash under
the device, inode, ctime and digest function. If there is none the content is read and its hash
stored. Calls run concurrently with each other and with changes of the files, a read sees the
content of its moment, and an entry may be computed while a file changes.
-/

namespace Reninja.FileHasher

variable {d : Key}

abbrev InodeId := Nat × Nat

/-- A file. `changed` is the ctime that the last change of the content gave it. -/
structure Inode where
  content : GoString
  ctime : Int
  changed : Int

structure HashKey (F : Type) where
  inode : InodeId
  ctimeNano : Int
  digestType : F
  deriving DecidableEq

structure Key where
  hash : GoString
  sizeBytes : Nat

/-- How far a call is. The key is missing on systems without a `Stat_t`; a call that returns `none`
has failed. -/
inductive Phase
  | opened
  | statted (ctime : Option Int)
  | reading (ctime : Option Int) (read : GoString)
  | computed (ctime : Option Int) (d : Key)
  | returned (result : Option Key)

structure Call (F : Type) where
  path : Path
  digestType : F
  inode : InodeId
  phase : Phase

structure System (F : Type) where
  names : Path → Option InodeId
  inodes : InodeId → Inode
  fileHashes : HashKey F → Option Key := fun _ => none
  calls : Nat → Option (Call F) := fun _ => none

variable {F : Type} [DecidableEq F] (hash : F → Option (GoString → GoString))

/-- What a call does next, and the memo after it. `hash` has the digest functions that are
supported. -/
inductive CallStep (s : System F) (c : Call F) : Phase → (HashKey F → Option Key) → Prop
  | stat (h : c.phase = .opened) :
      CallStep s c (.statted (some (s.inodes c.inode).ctime)) s.fileHashes
  | noStat (h : c.phase = .opened) : CallStep s c (.statted none) s.fileHashes
  | hit {t : Int} {d : Key} (h : c.phase = .statted (some t))
      (hd : s.fileHashes ⟨c.inode, t, c.digestType⟩ = some d) :
      CallStep s c (.returned (some d)) s.fileHashes
  | miss {t : Option Int} (h : c.phase = .statted t)
      (hmiss : ∀ t' ∈ t, s.fileHashes ⟨c.inode, t', c.digestType⟩ = none)
      (hsupported : hash c.digestType ≠ none) : CallStep s c (.reading t []) s.fileHashes
  | unsupported {t : Option Int} (h : c.phase = .statted t)
      (hmiss : ∀ t' ∈ t, s.fileHashes ⟨c.inode, t', c.digestType⟩ = none)
      (hnone : hash c.digestType = none) : CallStep s c (.returned none) s.fileHashes
  | read {t : Option Int} {r : GoString} (n : Nat) (h : c.phase = .reading t r)
      (hmore : r.length < (s.inodes c.inode).content.length) :
      CallStep s c (.reading t (r ++ ((s.inodes c.inode).content.drop r.length).take (n + 1)))
        s.fileHashes
  | finish {t : Option Int} {r : GoString} {f : GoString → GoString} (h : c.phase = .reading t r)
      (hend : (s.inodes c.inode).content.length ≤ r.length) (hf : hash c.digestType = some f) :
      CallStep s c (.computed t ⟨f r, r.length⟩) s.fileHashes
  | store {t : Int} {d : Key} (h : c.phase = .computed (some t) d) :
      CallStep s c (.returned (some d))
        (Function.update s.fileHashes ⟨c.inode, t, c.digestType⟩ (some d))
  | skip {d : Key} (h : c.phase = .computed none d) :
      CallStep s c (.returned (some d)) s.fileHashes

/-- One step of a call or, for `none`, of the file system or of a new call. A change of the content
gives the inode a newer ctime, also when its number is used again, and no change an older one. -/
inductive Step : Option Nat → System F → System F → Prop
  | call {s : System F} {i : Nat} {c : Call F} {p : Phase} {m : HashKey F → Option Key}
      (hc : s.calls i = some c) (h : CallStep hash s c p m) :
      Step (some i) s { s with
        fileHashes := m
        calls := Function.update s.calls i (some { c with phase := p }) }
  | «open» {s : System F} {i : Nat} {path : Path} {f : F} {k : InodeId} (hi : s.calls i = none)
      (hk : s.names path = some k) :
      Step none s { s with calls := Function.update s.calls i (some ⟨path, f, k, .opened⟩) }
  | rename {s : System F} (path : Path) (k : Option InodeId) :
      Step none s { s with names := Function.update s.names path k }
  | change {s : System F} (k : InodeId) (content : GoString) {ctime : Int}
      (hle : (s.inodes k).ctime ≤ ctime)
      (hlt : content ≠ (s.inodes k).content → (s.inodes k).ctime < ctime) :
      Step none s { s with
        inodes := Function.update s.inodes k
          ⟨content, ctime, if content = (s.inodes k).content then (s.inodes k).changed else ctime⟩ }

/-- The states of the program, from files that are as old as they say. -/
inductive Reached : System F → Prop
  | init (names : Path → Option InodeId) {inodes : InodeId → Inode}
      (h : ∀ k, (inodes k).changed ≤ (inodes k).ctime) :
      Reached { names := names, inodes := inodes }
  | step {s s' : System F} {a : Option Nat} : Reached s → Step hash a s s' → Reached s'

/-! ### Entries are never stale -/

def Holds (i : Inode) (t : Int) (P : GoString → Prop) : Prop :=
  t ≤ i.ctime ∧ (i.changed ≤ t → P i.content)

def IsDigest (f : F) (content : GoString) (d : Key) : Prop :=
  ∃ g, hash f = some g ∧ d = ⟨g content, content.length⟩

/-- What a call has found out is right for the ctime that it has seen. -/
def Call.Fits (c : Call F) (i : Inode) : Prop :=
  match c.phase with
  | .statted (some t) => Holds i t fun _ => True
  | .reading (some t) r => Holds i t fun content => r <+: content
  | .computed (some t) d => Holds i t fun content => IsDigest hash c.digestType content d
  | _ => True

structure Good (s : System F) : Prop where
  inodes : ∀ k, (s.inodes k).changed ≤ (s.inodes k).ctime
  memo : ∀ key d, s.fileHashes key = some d →
    Holds (s.inodes key.inode) key.ctimeNano fun content => IsDigest hash key.digestType content d
  calls : ∀ i c, s.calls i = some c → c.Fits hash (s.inodes c.inode)

variable {hash} {s s' : System F} {c : Call F} {p : Phase} {m : HashKey F → Option Key}

lemma Holds.mono {i i' : Inode} {t : Int} {P : GoString → Prop} (h : Holds i t P)
    (hle : i.ctime ≤ i'.ctime) (hi : i'.content = i.content ∧ i'.changed = i.changed ∨
      i.ctime < i'.changed) : Holds i' t P := by
  refine ⟨Int.le_trans h.1 hle, fun hchanged => ?_⟩
  rcases hi with ⟨hcontent, heq⟩ | hlt
  · rw [hcontent]
    exact h.2 (heq ▸ hchanged)
  · exact absurd (Int.le_trans hchanged h.1) (Int.not_le.mpr hlt)

omit [DecidableEq F] in
lemma Call.Fits.mono {i i' : Inode} (h : c.Fits hash i) (hle : i.ctime ≤ i'.ctime)
    (hi : i'.content = i.content ∧ i'.changed = i.changed ∨ i.ctime < i'.changed) :
    c.Fits hash i' := by
  obtain ⟨path, f, k, _ | (_ | t) | ⟨_ | t, r⟩ | ⟨_ | t, d⟩ | _⟩ := c
  all_goals simp only [Call.Fits] at h ⊢
  all_goals exact h.mono hle hi

lemma Step.inodes {a : Option Nat} (h : Step hash a s s') (k : InodeId) :
    (s.inodes k).ctime ≤ (s'.inodes k).ctime ∧
      ((s'.inodes k).content = (s.inodes k).content ∧ (s'.inodes k).changed = (s.inodes k).changed ∨
        (s'.inodes k).content ≠ (s.inodes k).content ∧
          (s'.inodes k).changed = (s'.inodes k).ctime ∧
          (s.inodes k).ctime < (s'.inodes k).changed) := by
  cases h with
  | call | «open» | rename => exact ⟨Int.le_refl _, .inl ⟨rfl, rfl⟩⟩
  | change k' content hle hlt =>
    by_cases hk : k = k'
    · subst hk
      by_cases hc : content = (s.inodes k).content
      · simp [hc, hle]
      · simp [hc, hle, hlt hc]
    · simp [hk]

lemma CallStep.good (h : CallStep hash s c p m) (hgood : Good hash s)
    (hc : c.Fits hash (s.inodes c.inode)) :
    ({ c with phase := p } : Call F).Fits hash (s.inodes c.inode) ∧
      ∀ key d, m key = some d → Holds (s.inodes key.inode) key.ctimeNano
        fun content => IsDigest hash key.digestType content d := by
  obtain ⟨path, f, k, phase⟩ := c
  cases h with
  | stat => exact ⟨⟨Int.le_refl _, fun _ => trivial⟩, hgood.memo⟩
  | noStat | hit | unsupported | skip => exact ⟨trivial, hgood.memo⟩
  | @miss t h =>
    subst h
    cases t with
    | none => exact ⟨trivial, hgood.memo⟩
    | some t => exact ⟨⟨hc.1, fun _ => List.nil_prefix⟩, hgood.memo⟩
  | @read t r n h hmore =>
    subst h
    cases t with
    | none => exact ⟨trivial, hgood.memo⟩
    | some t =>
      refine ⟨⟨hc.1, fun hchanged => ?_⟩, hgood.memo⟩
      obtain ⟨rest, hrest⟩ := hc.2 hchanged
      simp only [← hrest, List.drop_left]
      exact (List.prefix_append_right_inj r).mpr (List.take_prefix _ _)
  | @finish t r g h hend hg =>
    subst h
    cases t with
    | none => exact ⟨trivial, hgood.memo⟩
    | some t =>
      refine ⟨⟨hc.1, fun hchanged => ⟨g, hg, ?_⟩⟩, hgood.memo⟩
      rw [(hc.2 hchanged).eq_of_length_le hend]
  | @store t d h =>
    subst h
    refine ⟨trivial, fun key d' hd => ?_⟩
    by_cases hkey : key = ⟨k, t, f⟩
    · subst hkey
      rw [Function.update_self, Option.some.injEq] at hd
      exact hd ▸ hc
    · rw [Function.update_of_ne hkey] at hd
      exact hgood.memo key d' hd

omit [DecidableEq F] in
lemma update_cases {calls : Nat → Option (Call F)} {i j : Nat} {c' : Call F}
    (h : Function.update calls i (some c) j = some c') : c' = c ∨ calls j = some c' := by
  by_cases hj : j = i
  · subst hj
    rw [Function.update_self] at h
    exact .inl (Option.some.inj h).symm
  · rw [Function.update_of_ne hj] at h
    exact .inr h

lemma Step.good {a : Option Nat} (h : Step hash a s s') (hgood : Good hash s) : Good hash s' := by
  have hnewer (k : InodeId) := h.inodes k
  have hage (k : InodeId) : (s'.inodes k).changed ≤ (s'.inodes k).ctime := by
    rcases (hnewer k).2 with ⟨-, heq⟩ | ⟨-, heq, -⟩
    · exact heq ▸ Int.le_trans (hgood.inodes k) (hnewer k).1
    · exact Int.le_of_eq heq
  have hmemo : ∀ key d, s.fileHashes key = some d → Holds (s'.inodes key.inode) key.ctimeNano
      fun content => IsDigest hash key.digestType content d := fun key d hd =>
    (hgood.memo key d hd).mono (hnewer _).1 ((hnewer _).2.imp_right fun h => h.2.2)
  have hcalls : ∀ i c, s.calls i = some c → c.Fits hash (s'.inodes c.inode) := fun i c hc =>
    (hgood.calls i c hc).mono (hnewer _).1 ((hnewer _).2.imp_right fun h => h.2.2)
  cases h with
  | @call _ i c p m hc h =>
    obtain ⟨hfits, hm⟩ := h.good hgood (hgood.calls i c hc)
    refine ⟨hage, hm, fun j c' hc' => ?_⟩
    rcases update_cases hc' with rfl | hc'
    · exact hfits
    · exact hcalls j c' hc'
  | @«open» _ i path f k =>
    refine ⟨hage, hmemo, fun j c' hc' => ?_⟩
    rcases update_cases hc' with rfl | hc'
    · exact trivial
    · exact hcalls j c' hc'
  | rename | change => exact ⟨hage, hmemo, hcalls⟩

theorem Reached.good (h : Reached hash s) : Good hash s := by
  induction h with
  | init names h => exact ⟨h, by simp, by simp⟩
  | step _ h ih => exact h.good ih

def Still (path : Path) (k : InodeId) (content : GoString) (s : System F) : Prop :=
  s.names path = some k ∧ (s.inodes k).content = content

variable (hash) in
/-- A run in which the file does not change, with `n` steps of one call. -/
inductive Quiet (i : Nat) (path : Path) (k : InodeId) (content : GoString) (s : System F) :
    Nat → System F → Prop
  | refl : Still path k content s → Quiet i path k content s 0 s
  | own {n : Nat} {s₁ s₂ : System F} : Quiet i path k content s n s₁ → Step hash (some i) s₁ s₂ →
      Still path k content s₂ → Quiet i path k content s (n + 1) s₂
  | other {n : Nat} {s₁ s₂ : System F} {a : Option Nat} : Quiet i path k content s n s₁ →
      Step hash a s₁ s₂ → a ≠ some i → Still path k content s₂ → Quiet i path k content s n s₂

/-- The phases of a call on a file that does not change, and how many steps may follow. -/
inductive OnCourse (i : Inode) (d : Key) : Phase → Nat → Prop
  | opened : OnCourse i d .opened (i.content.length + 4)
  | statted {t : Option Int} (h : ∀ t' ∈ t, i.changed ≤ t') :
      OnCourse i d (.statted t) (i.content.length + 3)
  | reading (t : Option Int) {r rest : GoString} (h : r ++ rest = i.content) :
      OnCourse i d (.reading t r) (rest.length + 2)
  | computed (t : Option Int) : OnCourse i d (.computed t d) 1
  | returned : OnCourse i d (.returned (some d)) 0

variable {f : GoString → GoString} {n i : Nat}

lemma OnCourse.congr {j j' : Inode} (h : OnCourse j d p n) (hcontent : j'.content = j.content)
    (hchanged : j'.changed = j.changed) : OnCourse j' d p n := by
  cases h with
  | opened => exact hcontent ▸ .opened
  | statted h => exact hcontent ▸ .statted (hchanged ▸ h)
  | reading t h => exact .reading t (hcontent ▸ h)
  | computed t => exact .computed t
  | returned => exact .returned

lemma CallStep.onCourse (h : CallStep hash s c p m) (hgood : Good hash s)
    (hf : hash c.digestType = some f)
    (hd : d = ⟨f (s.inodes c.inode).content, (s.inodes c.inode).content.length⟩)
    (hc : OnCourse (s.inodes c.inode) d c.phase n) :
    ∃ n' < n, OnCourse (s.inodes c.inode) d p n' := by
  obtain ⟨path, g, k, phase⟩ := c
  cases h with
  | stat h =>
    subst h
    cases hc
    exact ⟨_, Nat.lt_succ_self _, .statted fun t ht => Option.mem_some.mp ht ▸ hgood.inodes k⟩
  | noStat h =>
    subst h
    cases hc
    exact ⟨_, Nat.lt_succ_self _, .statted (by simp)⟩
  | hit h hhit =>
    subst h
    cases hc with | statted hchanged =>
    obtain ⟨g', hg, rfl⟩ := (hgood.memo _ _ hhit).2 (hchanged _ rfl)
    obtain rfl := Option.some.inj (hf.symm.trans hg)
    exact ⟨0, Nat.succ_pos _, hd ▸ .returned⟩
  | miss h =>
    subst h
    cases hc
    exact ⟨_, Nat.lt_succ_self _, .reading _ rfl⟩
  | unsupported _ _ hnone => exact absurd (hf.symm.trans hnone) (by simp)
  | @read t r n h hmore =>
    subst h
    cases hc with | @reading _ _ rest hrest =>
    rw [← hrest, List.length_append] at hmore
    have hread : r ++ ((s.inodes k).content.drop r.length).take (n + 1) ++ rest.drop (n + 1) =
        (s.inodes k).content := by
      rw [← hrest, List.drop_left, List.append_assoc, List.take_append_drop]
    refine ⟨_, ?_, .reading _ hread⟩
    rw [List.length_drop]
    omega
  | finish h hend hg =>
    subst h
    cases hc with | @reading _ r rest hrest =>
    obtain rfl := Option.some.inj (hf.symm.trans hg)
    rw [← hrest, List.length_append] at hend
    obtain rfl : rest = [] := List.eq_nil_of_length_eq_zero (by omega)
    rw [List.append_nil] at hrest
    exact ⟨1, Nat.succ_lt_succ (Nat.succ_pos _), by rw [hrest, ← hd]; exact .computed _⟩
  | store h | skip h =>
    subst h
    cases hc
    exact ⟨0, Nat.one_pos, .returned⟩

lemma OnCourse.exists_callStep (hf : hash c.digestType = some f)
    (hc : OnCourse (s.inodes c.inode) d c.phase n) :
    (∃ p m, CallStep hash s c p m) ∨ c.phase = .returned (some d) := by
  obtain ⟨path, g, k, phase⟩ := c
  cases hc with
  | opened => exact .inl ⟨_, _, .noStat rfl⟩
  | @statted t _ =>
    left
    by_cases hhit : ∃ t' ∈ t, s.fileHashes ⟨k, t', g⟩ ≠ none
    · obtain ⟨t', rfl, hne⟩ := hhit
      obtain ⟨d', hd'⟩ := Option.ne_none_iff_exists'.mp hne
      exact ⟨_, _, .hit rfl hd'⟩
    · refine ⟨_, _, .miss rfl (fun t' ht' => ?_) (by rw [hf]; simp)⟩
      by_contra hne
      exact hhit ⟨t', ht', hne⟩
  | @reading t r rest hrest =>
    left
    by_cases hmore : r.length < (s.inodes k).content.length
    · exact ⟨_, _, .read 0 rfl hmore⟩
    · exact ⟨_, _, .finish rfl (Nat.not_lt.mp hmore) hf⟩
  | computed t =>
    cases t with
    | none => exact .inl ⟨_, _, .skip rfl⟩
    | some t => exact .inl ⟨_, _, .store rfl⟩
  | returned => exact .inr rfl

lemma Quiet.onCourse {path : Path} {k : InodeId} {content : GoString} {g : F}
    (hrun : Quiet hash i path k content s n s') (hgood : Good hash s)
    (hcall : s.calls i = some ⟨path, g, k, .opened⟩) (hf : hash g = some f)
    (hd : d = ⟨f content, content.length⟩) :
    Good hash s' ∧ (s'.inodes k).content = content ∧ ∃ p n', n + n' ≤ content.length + 4 ∧
      s'.calls i = some ⟨path, g, k, p⟩ ∧ OnCourse (s'.inodes k) d p n' := by
  induction hrun with
  | refl hstill => exact ⟨hgood, hstill.2, _, _, by rw [hstill.2]; simp, hcall, .opened⟩
  | @own n s₁ s₂ _ hstep hstill ih =>
    obtain ⟨hgood₁, hcontent, p, n', hle, hc, hcourse⟩ := ih
    refine ⟨hstep.good hgood₁, hstill.2, ?_⟩
    cases hstep with
    | call hc' h =>
      obtain rfl := Option.some.inj (hc.symm.trans hc')
      obtain ⟨n₁, hlt, hnext⟩ := h.onCourse hgood₁ hf (hcontent ▸ hd) hcourse
      exact ⟨_, n₁, by omega, Function.update_self .., hnext⟩
  | @other n s₁ s₂ a _ hstep ha hstill ih =>
    obtain ⟨hgood₁, hcontent, p, n', hle, hc, hcourse⟩ := ih
    obtain ⟨hsame, hchanged⟩ := (hstep.inodes k).2.resolve_right fun h =>
      h.1 (hstill.2.trans hcontent.symm)
    refine ⟨hstep.good hgood₁, hstill.2, p, n', hle, ?_, hcourse.congr hsame hchanged⟩
    cases hstep with
    | @call _ j =>
      exact (Function.update_of_ne (fun h => ha (congrArg some h.symm)) _ _).trans hc
    | @«open» _ j _ _ _ hj =>
      refine (Function.update_of_ne (fun h => ?_) _ _).trans hc
      rw [← h, hc] at hj
      cases hj
    | rename | change => exact hc

/-- A call during which its file does not change returns after a few steps, and with the digest of
the content. It can always take the next step until then. -/
theorem hashFile_current {path : Path} {k : InodeId} {content : GoString} {g : F}
    (hs : Reached hash s) (hcall : s.calls i = some ⟨path, g, k, .opened⟩) (hf : hash g = some f)
    (hrun : Quiet hash i path k content s n s') :
    n ≤ content.length + 4 ∧ ∃ p, s'.calls i = some ⟨path, g, k, p⟩ ∧
      ((∃ s'', Step hash (some i) s' s'') ∨ p = .returned (some ⟨f content, content.length⟩)) := by
  obtain ⟨-, -, p, n', hle, hc, hcourse⟩ := hrun.onCourse hs.good hcall hf rfl
  refine ⟨by omega, p, hc, ?_⟩
  rcases hcourse.exists_callStep (c := ⟨path, g, k, p⟩) hf with ⟨_, _, h⟩ | h
  · exact .inl ⟨_, .call hc h⟩
  · exact .inr h

def sampleSystem : System Unit where
  names _ := some (0, 0)
  inodes _ := ⟨[97], 1, 1⟩

def sampleHash (_ : Unit) : Option (GoString → GoString) := some id

def sampleCall (p : Phase) : Call Unit := ⟨[], (), (0, 0), p⟩

section Sample

variable {s : System Unit} {m : HashKey Unit → Option Key} {p' : Phase} (i : Nat)

lemma step_sampleOpen (hi : s.calls i = none) (hk : s.names [] = some (0, 0)) :
    Step sampleHash none s
      { s with calls := Function.update s.calls i (some (sampleCall .opened)) } :=
  .open hi hk

lemma step_sampleCall (p : Phase) (hc : s.calls i = some (sampleCall p))
    (h : CallStep sampleHash s (sampleCall p) p' m) : Step sampleHash (some i) s { s with
      fileHashes := m
      calls := Function.update s.calls i (some (sampleCall p')) } :=
  .call hc h

end Sample

/-- The file changes after the first call has asked for its status and before it reads, so that an
entry for the old ctime with the hash of the new content is stored. The second call asks for the
new ctime, reads the file itself and returns its digest. -/
theorem hashFile_current_sampleSystem : ∃ s s' : System Unit, Reached sampleHash s ∧
    s.fileHashes ⟨(0, 0), 1, ()⟩ = some ⟨[98], 1⟩ ∧ s.calls 1 = some (sampleCall .opened) ∧
    Quiet sampleHash 1 [] (0, 0) [98] s 5 s' ∧
    s'.calls 1 = some (sampleCall (.returned (some ⟨[98], 1⟩))) := by
  have hinit : Reached sampleHash sampleSystem := .init _ fun _ => Int.le_refl _
  have hopened := hinit.step (step_sampleOpen 0 rfl rfl)
  have hstatted := hopened.step (step_sampleCall 0 .opened rfl (.stat rfl))
  have hmissed := hstatted.step (step_sampleCall 0 (.statted (some 1)) rfl
    (.miss rfl (by simp [sampleSystem]) (by simp [sampleHash])))
  have hchanged := hmissed.step (.change (0, 0) [98] (show 1 ≤ 2 by decide) (by decide))
  have hread := hchanged.step (step_sampleCall 0 (.reading (some 1) []) rfl
    (.read 0 rfl (by decide)))
  have hfinished := hread.step (step_sampleCall 0 (.reading (some 1) [98]) rfl
    (.finish rfl (by decide) rfl))
  have hstored := hfinished.step (step_sampleCall 0 (.computed (some 1) ⟨[98], 1⟩) rfl (.store rfl))
  have hs := hstored.step (step_sampleOpen 1 rfl rfl)
  have hstart {s : System Unit} (_ : Reached sampleHash s) (h : Still [] (0, 0) [98] s) :
      Quiet sampleHash 1 [] (0, 0) [98] s 0 s := .refl h
  have hrun₁ := (hstart hs ⟨rfl, rfl⟩).own (step_sampleCall 1 .opened rfl (.stat rfl)) ⟨rfl, rfl⟩
  have hrun₂ := hrun₁.own (step_sampleCall 1 (.statted (some 2)) rfl
    (.miss rfl (by simp [sampleSystem, sampleCall]) (by simp [sampleHash]))) ⟨rfl, rfl⟩
  have hrun₃ := hrun₂.own (step_sampleCall 1 (.reading (some 2) []) rfl
    (.read 0 rfl (by decide))) ⟨rfl, rfl⟩
  have hrun₄ := hrun₃.own (step_sampleCall 1 (.reading (some 2) [98]) rfl
    (.finish rfl (by decide) rfl)) ⟨rfl, rfl⟩
  have hrun := hrun₄.own (step_sampleCall 1 (.computed (some 2) ⟨[98], 1⟩) rfl
    (.store rfl)) ⟨rfl, rfl⟩
  obtain ⟨-, p, hp, ⟨s'', hstep⟩ | rfl⟩ := hashFile_current hs rfl rfl hrun
  · -- a sixth step of the call is one too many
    cases hstep with
    | call hc h =>
      have hsix := (hashFile_current hs rfl rfl (hrun.own (.call hc h) ⟨rfl, rfl⟩)).1
      exact absurd hsix (by decide)
  · exact ⟨_, _, hs, rfl, rfl, hrun, hp⟩

end Reninja.FileHasher
