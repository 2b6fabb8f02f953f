import Reninja.DepsLog.Recompact

/-!
# When a deps log is rewritten

A log with more than a thousand records, of which more than two thirds are out of date, is to be
rewritten when it is opened. `Load` leaves its loop at the end of the file in the same way as at a
record that cannot be read, and then does not ask whether the log is due.
-/

namespace Reninja.DepsFile

open Program

variable {xs : List Entry}

def Entry.out? : Entry → Option Nat
  | .deps out _ _ => some out
  | .path _ => none

def outs (xs : List Entry) : List Nat := xs.filterMap Entry.out?

/-- There are more than 1000 records, and more than three for each output. -/
def Due (xs : List Entry) : Prop :=
  1000 < (outs xs).length ∧ (outs xs).dedup.length * 3 < (outs xs).length

instance : DecidablePred Due := fun _ => inferInstanceAs (Decidable (_ ∧ _))

def openForWrite (w : World) (t : Loader) : W Unit :=
  if t.needsRecompaction then recompact w t.log else pure ()

/-- The log is rewritten exactly if it is due. -/
structure RewrittenWhenDue (file : List UInt8) (t : Loader) : Prop where
  flag : t.needsRecompaction = true ↔ Due (fileEntries file).1
  opening : ∀ w s, openForWrite w t s =
    if Due (fileEntries file).1 then recompact w t.log s else .ok () s

/-! ### The loop of `Load` -/

/-- The flag is not set, and the loop is left with `readFailed`. -/
def Unflagged (again : Bool) (s : Loader) : Prop :=
  s.needsRecompaction = false ∧ (again = false → s.readFailed = true)

lemma stopReading_unflagged :
    Sat (fun s => s.needsRecompaction = false) stopReading Unflagged :=
  Sat.bind (Q := fun _ s => s.needsRecompaction = false ∧ s.readFailed = true)
    (Sat.modify fun _ hs => ⟨hs, rfl⟩) fun _ => Sat.pure fun _ hs => ⟨hs.1, fun _ => hs.2⟩

lemma readFull_unflagged (n : Nat) :
    Sat (fun s => s.needsRecompaction = false) (readFull n)
      fun _ s => s.needsRecompaction = false := by
  intro s b t hs h
  rw [readFull_apply] at h
  obtain ⟨-, rfl⟩ := EStateM.Result.ok.inj h
  exact hs

lemma get_unflagged :
    Sat (fun s : Loader => s.needsRecompaction = false) (get : L Loader)
      fun _ s => s.needsRecompaction = false :=
  Sat.get fun _ hs => hs

lemma loadDeps_unflagged (size : Nat) :
    Sat (fun s => s.needsRecompaction = false) (loadDeps size) Unflagged := by
  refine Sat.ite (fun _ => stopReading_unflagged) fun _ =>
    Sat.ite (fun _ => Sat.throw _) fun _ => ?_
  intro s b t hs h
  obtain ⟨rfl, rfl⟩ := EStateM.Result.ok.inj h
  exact ⟨hs, nofun⟩

lemma dropNul_unflagged (k : Nat) :
    Sat (fun s => s.needsRecompaction = false) (dropNul k)
      fun _ s => s.needsRecompaction = false := by
  cases k with
  | zero => exact Sat.throw _
  | succ k => exact Sat.bind (Sat.get fun _ hs => hs) fun _ => Sat.pure fun _ hs => hs

lemma loadPath_unflagged (size : Nat) :
    Sat (fun s => s.needsRecompaction = false) (loadPath size) Unflagged := by
  refine Sat.ite (fun _ => stopReading_unflagged) fun _ => ?_
  refine Sat.bind (dropNul_unflagged _) fun _ => Sat.bind (dropNul_unflagged _) fun _ =>
    Sat.bind (dropNul_unflagged _) fun _ => ?_
  refine Sat.bind get_unflagged fun _ => ?_
  exact Sat.ite (fun _ => stopReading_unflagged) fun _ =>
    Sat.bind (Q := fun _ s => s.needsRecompaction = false) (Sat.modify fun _ hs => hs) fun _ =>
      Sat.pure fun _ hs => ⟨hs, nofun⟩

lemma loadSized_unflagged (isDeps : Bool) (size : Nat) :
    Sat (fun s => s.needsRecompaction = false) (loadSized isDeps size) Unflagged := by
  refine Sat.ite (fun _ => stopReading_unflagged) fun _ => Sat.bind (readFull_unflagged size) ?_
  intro read
  refine Sat.ite (fun _ => ?_) fun _ => stopReading_unflagged
  refine Sat.bind (Q := fun _ s => s.needsRecompaction = false)
    (Sat.modify fun _ hs => hs) fun _ => ?_
  exact Sat.ite (fun _ => loadDeps_unflagged size) fun _ => loadPath_unflagged size

lemma loadRecord_unflagged :
    Sat (fun s => s.needsRecompaction = false) loadRecord Unflagged := by
  refine Sat.bind (readFull_unflagged 4) fun read => Sat.ite (fun _ => ?_) fun _ =>
    stopReading_unflagged
  exact Sat.bind get_unflagged fun _ =>
    loadSized_unflagged _ _

lemma loadLoop_unflagged (fuel : Nat) :
    Sat (fun s => s.needsRecompaction = false) (loadLoop fuel) fun _ => Unflagged false := by
  induction fuel with
  | zero => exact Sat.throw _
  | succ fuel ih =>
    refine Sat.bind loadRecord_unflagged fun again => ?_
    cases again with
    | true => exact ih.conseq (fun _ hs => hs.1) fun _ _ hq => hq
    | false => exact Sat.pure fun _ hs => hs

lemma loadHeader_unflagged :
    Sat (fun s => s.needsRecompaction = false) loadHeader
      fun _ s => s.needsRecompaction = false := by
  refine Sat.bind (readFull_unflagged _) fun _ => ?_
  refine Sat.bind get_unflagged fun _ => ?_
  refine Sat.bind (readFull_unflagged _) fun _ => ?_
  refine Sat.bind get_unflagged fun _ => ?_
  exact Sat.ite (fun _ => Sat.pure fun _ hs => hs) fun _ =>
    Sat.bind (Q := fun _ s => s.needsRecompaction = false) (Sat.modify fun _ hs => hs) fun _ =>
      Sat.pure fun _ hs => hs

lemma load_unflagged :
    Sat (fun s => s.needsRecompaction = false) load fun _ s => s.needsRecompaction = false := by
  refine Sat.bind loadHeader_unflagged fun err => ?_
  cases err with
  | some err => exact Sat.pure fun _ hs => hs
  | none =>
    refine Sat.bind get_unflagged fun _ => ?_
    refine Sat.bind (loadLoop_unflagged _) fun _ => ?_
    refine Sat.bind (Q := fun _ s => s.needsRecompaction = false)
      (Sat.modify fun s hs => ?_) fun _ => Sat.pure fun _ hs => hs
    rw [finishLoad, if_pos (hs.2 rfl)]
    exact hs.1

/-- For every file that calls of `RecordDeps` wrote, the log is rewritten exactly when it is due if
and only if it is not due. -/
theorem load_rewritten_iff {file : List UInt8} (h : RecordedFile file) :
    ∃ t, load (Loader.start file) = .ok none t ∧
      (RewrittenWhenDue file t ↔ ¬ Due (fileEntries file).1) := by
  obtain ⟨bytes, xs, rfl, hparse, -⟩ := h.entries
  obtain ⟨t, hload, -⟩ := load_header hparse
  have hflag : t.needsRecompaction = false := load_unflagged _ _ _ rfl hload
  refine ⟨t, hload, ?_, ?_⟩
  · intro hright hdue
    rw [hright.flag.mpr hdue] at hflag
    cases hflag
  · intro hdue
    refine ⟨iff_of_false (by rw [hflag]; decide) hdue, fun w s => ?_⟩
    rw [openForWrite, hflag, if_neg hdue]
    rfl

/-- The file of two calls is not due. -/
theorem load_rewritten_sample :
    RecordedFile (Writer.recordAll { log := {} } sampleCalls).close.file ∧
    ∃ t, load (Loader.start (Writer.recordAll { log := {} } sampleCalls).close.file) = .ok none t ∧
      (RewrittenWhenDue (Writer.recordAll { log := {} } sampleCalls).close.file t ↔
        ¬ Due (fileEntries (Writer.recordAll { log := {} } sampleCalls).close.file).1) :=
  ⟨.new sampleCalls, load_rewritten_iff (.new sampleCalls)⟩

/-- A writer that has appended at least `k` records of dependencies to a new file, all of them for
`n`, and the last with this time and without dependencies. -/
structure Rerecorded (n : Path) (k : Nat) (mtime : Int64) (s : Writer) : Prop where
  entries : ∃ xs, Written (· = n) {} xs ∧ s.log = Log.replay {} xs ∧
    s.content = header ++ entriesBytes 0 xs ∧ k ≤ (outs xs).length
  known : 0 ≤ s.log.ids n
  last : s.log.getDeps n = .ok (some ⟨mtime.toInt, []⟩)

lemma Rerecorded.record {n : Path} {k : Nat} {mtime mtime' : Int64} {s : Writer}
    (h : Rerecorded n k mtime s) (hne : mtime.toInt ≠ mtime'.toInt) :
    Rerecorded n (k + 1) mtime' (s.record ⟨n, mtime', []⟩) := by
  obtain ⟨⟨xs, hxs, hlog, hcontent, hk⟩, hknown, hlast⟩ := h
  have hnum : s.log.Numbered := hlog ▸ hxs.numbered .empty
  have hrecord : recordDeps n mtime'.toInt [] s = writeDeps n mtime'.toInt [] s := by
    have hchange : ¬ (⟨mtime.toInt, []⟩ : Record) = ⟨mtime'.toInt, []⟩ := fun heq =>
      hne (congrArg Record.mtime heq)
    simp only [recordDeps, recordIdIfMissing, recordMissingIds, bind_apply, get_apply,
      if_neg (Int.not_lt.mpr hknown), pure_apply, hlast, orThrow]
    simp [hchange]
  obtain ⟨hx, hlog', hcontent'⟩ := @writeDeps_writes _ s (· = n) [] n mtime'.toInt
    (s.record ⟨n, mtime', []⟩) ⟨mtime'.le_toInt, mtime'.toInt_lt⟩ rfl (by simp) hknown (by simp)
    (by decide) hnum (by rw [Writer.record, List.map_nil, hrecord]) rfl
  have hnodes : s.log.nodes.length = (xs.filterMap Entry.path?).length := by
    rw [hlog, Log.replay_nodes]
    rfl
  have hreplay : (s.record ⟨n, mtime', []⟩).log =
      s.log.updateDeps (s.log.ids n).toNat ⟨mtime'.toInt, []⟩ := hlog'
  refine ⟨⟨xs ++ [.deps (s.log.ids n).toNat mtime'.toInt []],
    written_append.mpr ⟨hxs, by rw [← hlog]; exact hx⟩, ?_, ?_, ?_⟩, ?_, ?_⟩
  · rw [Log.replay_append, ← hlog]
    exact hlog'
  · rw [hcontent', hcontent, hnodes, entriesBytes_append, Nat.zero_add, List.append_assoc]
    rfl
  · rw [outs, List.filterMap_append, List.length_append]
    exact Nat.add_le_add_right hk 1
  · rw [hreplay]
    exact hknown
  · have hids : (s.log.updateDeps (s.log.ids n).toNat ⟨mtime'.toInt, []⟩).ids = s.log.ids := rfl
    rw [hreplay, Log.getDeps_of_nonneg (by rw [hids]; exact hknown), hids, Log.depsAt_updateDeps,
      if_pos rfl]

/-- One node that is recorded again and again, with two times in turn. -/
def flipCalls : List Call := [⟨[97], 1, []⟩, ⟨[97], 0, []⟩]

def flips (k : Nat) : List Call := ⟨[97], 0, []⟩ :: (List.replicate k flipCalls).flatten

lemma rerecorded_flips (k : Nat) :
    Rerecorded [97] (2 * k) 0 (Writer.recordAll { log := {} } (flips k)) := by
  have hstart : Rerecorded [97] 0 0 (Writer.record { log := {} } ⟨[97], 0, []⟩) := by
    obtain ⟨xs, hxs, hlog, hcontent⟩ :=
      Writer.record_appends { log := {} } ⟨[97], 0, []⟩ .empty
    have hnew := Writer.record_new (s := { log := {} }) (n := [97]) .empty nofun (by decide)
    refine
      ⟨⟨xs, hxs.mono fun p hp => List.mem_singleton.mp hp, hlog, hcontent, Nat.zero_le _⟩, ?_, ?_⟩
    · rw [hnew]
      decide
    · rw [hnew]
      decide
  have hrun : ∀ k s i, Rerecorded [97] i 0 s →
      Rerecorded [97] (i + 2 * k) 0 (Writer.recordAll s (List.replicate k flipCalls).flatten) := by
    intro k
    induction k with
    | zero => exact fun s i h => h
    | succ k ih =>
      intro s i h
      have hone : Rerecorded [97] (i + 1) 1 _ := h.record (by decide)
      have hzero : Rerecorded [97] (i + 1 + 1) 0 _ := hone.record (by decide)
      have := ih _ _ hzero
      rw [show i + 1 + 1 + 2 * k = i + 2 * (k + 1) by omega] at this
      exact this
  have := hrun k _ 0 hstart
  rwa [Nat.zero_add] at this

lemma outs_eq_zero {n : Path} {log : Log} (hlog : log.nodes = [] ∨ log.nodes = [n])
    (hxs : Written (· = n) log xs) : ∀ out ∈ outs xs, out = 0 := by
  induction xs generalizing log with
  | nil => nofun
  | cons x xs ih =>
    cases x with
    | path p =>
      obtain ⟨rfl, hfresh, -⟩ := hxs.1
      refine @ih (log.addNode p) (.inr ?_) hxs.2
      rcases hlog with h | h
      · rw [Log.addNode, h]
        rfl
      · exact absurd (by rw [h]; exact List.mem_singleton_self p) hfresh
    | deps out mtime ids =>
      have hzero : out = 0 := by
        obtain ⟨⟨p, hp, -⟩, -⟩ := hxs.1
        have hlt : out < log.nodes.length := (List.getElem?_eq_some_iff.mp hp).1
        rcases hlog with h | h
        · rw [h] at hlt
          exact absurd hlt (Nat.not_lt_zero out)
        · rw [h] at hlt
          exact Nat.lt_one_iff.mp hlt
      have hrest := @ih (log.apply (.deps out mtime ids)) hlog hxs.2
      intro o ho
      rcases List.mem_cons.mp (show o ∈ out :: outs xs from ho) with rfl | ho
      · exact hzero
      · exact hrest o ho

lemma outs_stored (h : ∀ out ∈ outs xs, out = 0) : outs (xs.map Entry.stored) = outs xs := by
  rw [outs, outs, List.filterMap_map]
  refine List.filterMap_congr fun x hx => ?_
  cases x with
  | path p => rfl
  | deps out mtime ids =>
    have hzero : out = 0 := h out (List.mem_filterMap.mpr ⟨_, hx, rfl⟩)
    subst hzero
    rfl

lemma due_of_zero (h : ∀ out ∈ outs xs, out = 0) (hmany : 1000 < (outs xs).length) : Due xs := by
  refine ⟨hmany, ?_⟩
  have hsub : (outs xs).dedup ⊆ [0] := fun o ho =>
    List.mem_singleton.mpr (h o (List.mem_dedup.mp ho))
  have hle := ((List.nodup_dedup (outs xs)).subperm hsub).length_le
  simp only [List.length_singleton] at hle
  omega

/-- After 1003 records for one output the log is due and is not rewritten. -/
theorem load_rewritten_fails : ∃ t,
    load (Loader.start (Writer.recordAll { log := {} } (flips 501)).close.file) = .ok none t ∧
      ¬ RewrittenWhenDue (Writer.recordAll { log := {} } (flips 501)).close.file t := by
  obtain ⟨⟨xs, hxs, -, hcontent, hmany⟩, -⟩ := rerecorded_flips 501
  have hzero := outs_eq_zero (.inl rfl) hxs
  have hpaths : ∀ p, .path p ∈ xs → storedPath p = p := by
    intro p hp
    obtain rfl : p = [97] := (hxs.paths .empty).2 p (List.mem_filterMap.mpr ⟨_, hp, rfl⟩)
    decide
  have hparse := (hxs.spells_stored hpaths).parseAll []
  rw [List.append_nil, parseAll_nil, List.append_nil] at hparse
  obtain ⟨t, hload, -⟩ := load_header hparse
  have hdue : Due (fileEntries (header ++ entriesBytes 0 xs)).1 := by
    rw [fileEntries_header]
    have hsame := outs_stored hzero
    rw [show parseAll [] (entriesBytes 0 xs) = (xs.map Entry.stored, true) from hparse]
    exact due_of_zero (by rwa [hsame]) (by rw [hsame]; omega)
  rw [Writer.close_file, hcontent]
  refine ⟨t, hload, fun hright => ?_⟩
  have hflag : t.needsRecompaction = false := load_unflagged _ _ _ rfl hload
  rw [hright.flag.mpr hdue] at hflag
  cases hflag

end Reninja.DepsFile
