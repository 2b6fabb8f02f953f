import Reninja.DepsLog.Recover

/-!
# Rewriting the deps log

`Recompact` records the live records of a log again, in the order of the old ids and under new
ones. For a log that was loaded from a file that `RecordDeps` wrote it always succeeds, keeps
exactly the live records, and leaves a file that is loaded with them.
-/

namespace Reninja.DepsFile

open Program Log List

variable {log : Log} {n : Path} {r : Record}

/-! ### The effect of one call -/

def Log.Listed (log : Log) : Prop := ∀ out r, log.depsAt out = some r → out < log.nodes.length

lemma Log.Listed.empty : ({} : Log).Listed := by
  intro out r h
  simp [depsAt] at h

lemma Log.Listed.depsAt_length (h : log.Listed) : log.depsAt log.nodes.length = none := by
  cases hr : log.depsAt log.nodes.length with
  | none => rfl
  | some r => exact absurd (h _ r hr) (Nat.lt_irrefl _)

/-- A log in which `GetDeps` can be followed through a call. -/
structure Log.Tidy (log : Log) : Prop where
  numbered : log.Numbered
  listed : log.Listed

lemma Log.getDeps_of_neg (h : log.ids n < 0) : log.getDeps n = .ok none := by
  rw [getDeps, if_pos (.inl h)]

lemma Log.Tidy.getDeps_addNode (h : log.Tidy) (hn : log.ids n < 0) (m : Path) :
    (log.addNode n).getDeps m = log.getDeps m := by
  by_cases hmn : m = n
  · subst hmn
    have hid : (log.addNode m).ids m = log.nodes.length := by simp [addNode]
    rw [getDeps_of_neg hn, getDeps_of_nonneg (by omega), hid, Int.toNat_natCast]
    exact congrArg _ h.listed.depsAt_length
  · have hid : (log.addNode n).ids m = log.ids m := by simp [addNode, hmn]
    rw [getDeps, getDeps, hid]
    rfl

lemma Log.Tidy.addNode (h : log.Tidy) (hn : log.ids n < 0) : (log.addNode n).Tidy := by
  have hnew : n ∉ log.nodes := fun hmem => by
    have := h.numbered.nonneg_iff.mpr hmem
    omega
  refine ⟨h.numbered.addNode hnew, fun out r hr => ?_⟩
  have hlt := h.listed out r hr
  simp only [Log.addNode, length_append]
  omega

/-- The record of a node is replaced, and the others are kept. -/
lemma Log.Tidy.getDeps_updateDeps (h : log.Tidy) (hn : 0 ≤ log.ids n) (r : Record) (m : Path) :
    (log.updateDeps (log.ids n).toNat r).getDeps m =
      if m = n then .ok (some r) else log.getDeps m := by
  have hids : (log.updateDeps (log.ids n).toNat r).ids = log.ids := rfl
  by_cases hm : 0 ≤ log.ids m
  · rw [getDeps_of_nonneg (by rw [hids]; exact hm), hids, depsAt_updateDeps,
      getDeps_of_nonneg hm]
    by_cases hmn : m = n
    · rw [if_pos (by rw [hmn]), if_pos hmn]
    · rw [if_neg hmn, if_neg]
      intro heq
      have hat := h.numbered.getElem?_ids hm
      rw [heq, h.numbered.getElem?_ids hn, Option.some.injEq] at hat
      exact hmn hat.symm
  · have hmn : m ≠ n := by
      rintro rfl
      exact hm hn
    have hneg : log.ids m < 0 := by omega
    rw [if_neg hmn, getDeps_of_neg hneg, getDeps_of_neg (by rw [hids]; exact hneg)]

lemma Log.Tidy.updateDeps (h : log.Tidy) (hn : 0 ≤ log.ids n) (r : Record) :
    (log.updateDeps (log.ids n).toNat r).Tidy := by
  refine ⟨⟨h.numbered.nodup, h.numbered.ids, h.numbered.others⟩, fun out r' hr => ?_⟩
  rw [depsAt_updateDeps] at hr
  split at hr
  next hout =>
    obtain ⟨hlt, -⟩ := List.getElem?_eq_some_iff.mp (h.numbered.getElem?_ids hn)
    rw [hout]
    exact hlt
  next => exact h.listed out r' hr

section Calls

variable {s : Writer}

/-- The call succeeds, and the records are as they should be. -/
def Leaves {α : Type} (deps : Path → Except Failure (Option Record))
    (r : EStateM.Result Failure Writer α) : Prop :=
  ∃ a t, r = .ok a t ∧ t.log.Tidy ∧ ∀ m, t.log.getDeps m = deps m

lemma recordIdIfMissing_leaves (h : s.log.Tidy) (hn : ¬ Refused n) :
    Leaves s.log.getDeps (recordIdIfMissing n s) := by
  simp only [recordIdIfMissing, bind_apply, get_apply]
  split
  next hid =>
    rw [bind_apply, recordId_apply hn]
    exact ⟨true, _, rfl, h.addNode hid, h.getDeps_addNode hid⟩
  next => exact ⟨false, s, rfl, h, fun _ => rfl⟩

lemma recordMissingIds_leaves (h : s.log.Tidy) {ps : List Path} (hps : ∀ p ∈ ps, ¬ Refused p) :
    Leaves s.log.getDeps (recordMissingIds (ps.map some) s) := by
  induction ps generalizing s with
  | nil => exact ⟨false, s, rfl, h, fun _ => rfl⟩
  | cons p ps ih =>
    obtain ⟨hp, hps⟩ := forall_mem_cons.mp hps
    obtain ⟨b₁, s₁, h₁, htidy₁, hdeps₁⟩ := recordIdIfMissing_leaves h hp
    obtain ⟨b₂, s₂, h₂, htidy₂, hdeps₂⟩ := ih htidy₁ hps
    refine ⟨b₁ || b₂, s₂, ?_, htidy₂, fun m => (hdeps₂ m).trans (hdeps₁ m)⟩
    simp only [map_cons, recordMissingIds, bind_apply, h₁, h₂, pure_apply]

lemma recordDeps_leaves (h : s.log.Tidy) (mtime : TimeStamp) {ps : List Path} (hn : ¬ Refused n)
    (hps : ∀ p ∈ ps, ¬ Refused p) (hsize : 4 * (3 + ps.length) ≤ maxRecordSize) :
    Leaves (fun m => if m = n then .ok (some ⟨mtime, ps.map some⟩) else s.log.getDeps m)
      (recordDeps n mtime (ps.map some) s) := by
  obtain ⟨b₁, s₁, h₁, htidy₁, hdeps₁⟩ := recordIdIfMissing_leaves h hn
  obtain ⟨b₂, s₂, h₂, htidy₂, hdeps₂⟩ := recordMissingIds_leaves htidy₁ hps
  have hid : 0 ≤ s₂.log.ids n := (recordMissingIds_ids h₂).2 n (recordIdIfMissing_ids h₁).1
  have hsame : ∀ m, s₂.log.getDeps m = s.log.getDeps m := fun m => (hdeps₂ m).trans (hdeps₁ m)
  obtain ⟨before, hbefore⟩ := s₂.log.getDeps_ok n
  have hrun : recordDeps n mtime (ps.map some) s =
      (if !(b₁ || b₂) && before = some ⟨mtime, ps.map some⟩ then pure ()
        else writeDeps n mtime (ps.map some)) s₂ := by
    simp only [recordDeps, bind_apply, h₁, h₂, get_apply, hbefore, orThrow, pure_apply]
  rw [hrun]
  split
  next hskip =>
    refine ⟨(), s₂, rfl, htidy₂, fun m => ?_⟩
    simp only
    by_cases hmn : m = n
    · simp only [Bool.and_eq_true, decide_eq_true_eq] at hskip
      rw [if_pos hmn, hmn, hbefore, hskip.2]
    · rw [if_neg hmn, hsame]
  next =>
    have hwrite : ∃ t, writeDeps n mtime (ps.map some) s₂ = .ok () t := by
      rw [writeDeps]
      simp only [length_map]
      rw [if_neg (by omega)]
      exact ⟨_, rfl⟩
    obtain ⟨t, ht⟩ := hwrite
    have hlog : t.log = s₂.log.updateDeps (s₂.log.ids n).toNat ⟨mtime, ps.map some⟩ := by
      rw [← writeDeps_log s₂ n mtime (by simpa using hsize), ht]
      rfl
    refine ⟨(), t, ht, hlog ▸ htidy₂.updateDeps hid _, fun m => ?_⟩
    rw [hlog, htidy₂.getDeps_updateDeps hid, hsame]

end Calls

section Stored

variable {p : Path}

lemma trimNul_length_ge (p : List UInt8) : p.length ≤ (trimNul p).length + 1 := by
  rcases trimNul_cases p with h | ⟨h, -⟩
  · exact (congrArg length h).le.trans (by simp)
  · exact (congrArg length h).le.trans (Nat.le_succ _)

lemma storedPath_length_le (p : Path) : (storedPath p).length ≤ (padded p).length :=
  (trimNul_length_le _).trans ((trimNul_length_le _).trans (trimNul_length_le _))

lemma storedPath_length_ge (p : Path) : (padded p).length ≤ (storedPath p).length + 3 := by
  have h₁ := trimNul_length_ge (padded p)
  have h₂ := trimNul_length_ge (trimNul (padded p))
  have h₃ := trimNul_length_ge (trimNul (trimNul (padded p)))
  rw [storedPath]
  omega

/-- What is left after the NULs at the end still ends in one only if there were three before it. -/
lemma padded_eq_of_stored_nul (h : (storedPath p).getLast? = some 0) :
    padded p = storedPath p ++ replicate 3 0 := by
  have hkeep : ∀ {q : List UInt8}, (trimNul q).getLast? = some 0 → q = trimNul q ++ [0] := by
    intro q hq
    rcases trimNul_cases q with heq | ⟨heq, hlast⟩
    · exact heq
    · rw [← heq] at hq
      exact absurd hq hlast
  have h₃ := hkeep h
  have h₂ := hkeep (q := trimNul (padded p)) (by rw [h₃]; simp)
  have h₁ := hkeep (q := padded p) (by rw [h₂]; simp)
  have hthree : replicate 3 (0 : UInt8) = [0] ++ [0] ++ [0] := rfl
  rw [hthree, ← append_assoc, ← append_assoc, storedPath, ← h₃, ← h₂]
  exact h₁

/-- A path that was read from a file is read back when it is written again. -/
lemma storedPath_storedPath (p : Path) : storedPath (storedPath p) = storedPath p := by
  by_cases h : (storedPath p).getLast? = some 0
  · have hpadded := padded_eq_of_stored_nul h
    have hlen := congrArg length hpadded
    have hmod := padded_length_mod p
    rw [length_append, length_replicate] at hlen
    have hpadding : pathPadding (storedPath p) = 3 := by
      rw [pathPadding]
      omega
    rw [storedPath, padded, hpadding, ← hpadded]
    rfl
  · exact storedPath_eq_self h

lemma storedPath_not_refused (h : ¬ Refused p) : ¬ Refused (storedPath p) := by
  obtain ⟨hne, hmax⟩ := not_or.mp h
  have hpos : 0 < p.length := length_pos_iff.mpr hne
  have hle := storedPath_length_le p
  have hge := storedPath_length_ge p
  have hmod := padded_length_mod p
  have hlen := padded_length p
  rintro (hempty | hlong)
  · rw [hempty, length_nil] at hge
    omega
  · rw [pathPadding] at hlong
    omega

end Stored

lemma Entry.stored_stored (x : Entry) : x.stored.stored = x.stored := by
  cases x with
  | path p => rw [Entry.stored, Entry.stored, storedPath_storedPath]
  | deps out mtime ids =>
    simp only [Entry.stored, Nat.mod_mod, map_map, Function.comp_def, Int.bmod_bmod]

/-- Records that were written are read as records that can be written again, although not all of
them and not with the same paths and ids. -/
lemma Written.reread {named : Path → Prop} {log log' : Log} {xs : List Entry}
    (h : Written named log xs) (hlen : log'.nodes.length = log.nodes.length) :
    ∃ ys, parseAll log'.nodes (entriesBytes log.nodes.length xs) = (ys, true) ∧
      Written (fun _ => True) log' ys ∧ ∀ y ∈ ys, y.stored = y := by
  induction xs generalizing log log' with
  | nil => exact ⟨[], parseAll_nil _, trivial, by simp⟩
  | cons x xs ih =>
    obtain ⟨hx, hxs⟩ := h
    have htail : (log'.apply x.stored).nodes.length = (log.apply x).nodes.length := by
      rw [apply_nodes, apply_nodes, length_append, length_append, hlen]
      cases x <;> rfl
    obtain ⟨ys, hparse, hys, hstored⟩ := ih hxs htail
    -- The first record is accepted, with everything behind it.
    have haccept : x.stored.Written (fun _ => True) log' →
        parseHead log'.nodes (x.bytes log.nodes.length ++
          entriesBytes (log.nodes.length + x.path?.toList.length) xs) =
          .entry x.stored (entriesBytes (log.nodes.length + x.path?.toList.length) xs) →
        ∃ ys, parseAll log'.nodes (entriesBytes log.nodes.length (x :: xs)) = (ys, true) ∧
          Written (fun _ => True) log' ys ∧ ∀ y ∈ ys, y.stored = y := by
      intro hwritten hhead
      refine ⟨x.stored :: ys, ?_, ⟨hwritten, hys⟩,
        forall_mem_cons.mpr ⟨x.stored_stored, hstored⟩⟩
      rw [apply_nodes, apply_nodes, length_append] at hparse
      rw [entriesBytes, parseAll_entry hhead, hparse]
    cases x with
    | path p =>
      have hhead := parseHead_path log'.nodes
        (entriesBytes (log.nodes.length + (Entry.path p).path?.toList.length) xs) hx.2.2
      rw [hlen] at hhead
      by_cases hold : storedPath p ∈ log'.nodes
      · rw [if_pos hold] at hhead
        exact ⟨[], by rw [entriesBytes, parseAll_stops hhead], trivial, by simp⟩
      · rw [if_neg hold] at hhead
        exact haccept ⟨trivial, hold, storedPath_not_refused hx.2.2⟩ hhead
    | deps out mtime ids =>
      obtain ⟨⟨n, hn, -⟩, hids, hsize, -⟩ := hx
      have hknown : ∀ {id : Nat} {m : Path}, log.nodes[id]? = some m →
          ∃ m', log'.nodes[id % 2 ^ 32]? = some m' ∧ True := by
        intro id m hm
        obtain ⟨hlt, -⟩ := List.getElem?_eq_some_iff.mp hm
        have hle := Nat.mod_le id (2 ^ 32)
        exact ⟨_, getElem?_eq_getElem (by omega), trivial⟩
      refine haccept ⟨hknown hn, fun id hid => ?_, ?_, ?_⟩ (parseHead_deps _ _ out mtime _ hsize)
      · obtain ⟨id', hid', rfl⟩ := mem_map.mp hid
        obtain ⟨m, hm, -⟩ := hids id' hid'
        exact hknown hm
      · rwa [length_map]
      · exact ⟨Int.le_bmod (by decide), Int.bmod_lt (by decide)⟩

/-! ### Files that were recorded -/

def Log.reached (log : Log) : List Path := log.nodes.take (2 ^ 32)

/-- A record that was read: its nodes are known, and it can be written. -/
structure Record.Copyable (reached : List Path) (r : Record) : Prop where
  nodes : ∃ ps : List Path, r.nodes = ps.map some ∧ (∀ p ∈ ps, p ∈ reached) ∧
    4 * (3 + ps.length) ≤ maxRecordSize
  mtime : -2 ^ 63 ≤ r.mtime ∧ r.mtime < 2 ^ 63

lemma Record.Copyable.mono {reached reached' : List Path} (h : r.Copyable reached)
    (hsub : ∀ p ∈ reached, p ∈ reached') : r.Copyable reached' := by
  obtain ⟨ps, hnodes, hps, hsize⟩ := h.nodes
  exact ⟨⟨ps, hnodes, fun p hp => hsub p (hps p hp), hsize⟩, h.mtime⟩

/-- A log that was read from a file that `RecordDeps` wrote. -/
structure Log.Readable (log : Log) : Prop where
  tidy : log.Tidy
  path : ∀ p ∈ log.nodes, ¬ Refused p ∧ storedPath p = p
  out : ∀ out r, log.depsAt out = some r → out < 2 ^ 32
  record : ∀ out r, log.depsAt out = some r → r.Copyable log.reached

lemma Log.Readable.empty : ({} : Log).Readable where
  tidy := ⟨.empty, .empty⟩
  path p hp := absurd hp not_mem_nil
  out out r h := by simp [depsAt] at h
  record out r h := by simp [depsAt] at h

section Readable

variable {log : Log} (h : log.Readable)

include h

lemma Log.Readable.addNode {p : Path} (hnew : p ∉ log.nodes) (hp : ¬ Refused p)
    (hstored : storedPath p = p) : (log.addNode p).Readable where
  tidy := h.tidy.addNode (by rw [h.tidy.numbered.others p hnew]; decide)
  path q hq := by
    simp only [Log.addNode, mem_append, mem_singleton] at hq
    rcases hq with hq | rfl
    · exact h.path q hq
    · exact ⟨hp, hstored⟩
  out := h.out
  record out r hr := (h.record out r hr).mono fun q hq => by
    simp only [Log.reached, Log.addNode, take_append, mem_append]
    exact .inl hq

lemma Log.Readable.updateDeps {out : Nat} (hout : out < log.nodes.length) (hlt : out < 2 ^ 32)
    (hr : r.Copyable log.reached) : (log.updateDeps out r).Readable := by
  have hat : ∀ o r', (log.updateDeps out r).depsAt o = some r' →
      o = out ∧ r' = r ∨ log.depsAt o = some r' := by
    intro o r' ho
    rw [depsAt_updateDeps] at ho
    split at ho
    next heq => exact .inl ⟨heq, (Option.some.inj ho).symm⟩
    next => exact .inr ho
  refine ⟨⟨⟨h.tidy.numbered.nodup, h.tidy.numbered.ids, h.tidy.numbered.others⟩,
    fun o r' ho => ?_⟩, h.path, fun o r' ho => ?_, fun o r' ho => ?_⟩
  · rcases hat o r' ho with ⟨rfl, -⟩ | hold
    · exact hout
    · exact h.tidy.listed o r' hold
  · rcases hat o r' ho with ⟨rfl, -⟩ | hold
    · exact hlt
    · exact h.out o r' hold
  · rcases hat o r' ho with ⟨-, rfl⟩ | hold
    · exact hr
    · exact h.record o r' hold

lemma Log.Readable.apply {x : Entry} (hx : x.Written (fun _ => True) log)
    (hstored : x.stored = x) : (log.apply x).Readable := by
  cases x with
  | path p => exact h.addNode hx.2.1 hx.2.2 (Entry.path.inj hstored)
  | deps out mtime ids =>
    obtain ⟨⟨n, hn, -⟩, hids, hsize, hmtime⟩ := hx
    obtain ⟨hout, -, hidsEq⟩ := Entry.deps.inj hstored
    obtain ⟨hlt, -⟩ := List.getElem?_eq_some_iff.mp hn
    have hsmall : ∀ id ∈ ids, id < 2 ^ 32 := by
      intro id hid
      rw [← hidsEq] at hid
      obtain ⟨id', -, rfl⟩ := mem_map.mp hid
      exact Nat.mod_lt _ (by decide)
    have hknown : ∀ id ∈ ids, id < log.nodes.length := fun id hid => by
      obtain ⟨m, hm, -⟩ := hids id hid
      exact (List.getElem?_eq_some_iff.mp hm).1
    refine h.updateDeps hlt (hout ▸ Nat.mod_lt _ (by decide)) ⟨?_, hmtime⟩
    refine ⟨ids.filterMap (log.nodes[·]?), nodesWithIds_of_known hknown, fun p hp => ?_, ?_⟩
    · obtain ⟨id, hid, hat⟩ := mem_filterMap.mp hp
      refine mem_iff_getElem?.mpr ⟨id, ?_⟩
      rw [reached, getElem?_take, if_pos (hsmall id hid), hat]
    · have hle := length_filterMap_le (log.nodes[·]?) ids
      omega

lemma Log.Readable.replay {xs : List Entry} (hxs : Written (fun _ => True) log xs)
    (hstored : ∀ x ∈ xs, x.stored = x) : (log.replay xs).Readable := by
  induction xs generalizing log with
  | nil => exact h
  | cons x xs ih =>
    obtain ⟨hx, hrest⟩ := forall_mem_cons.mp hstored
    exact ih (h.apply hxs.1 hx) hxs.2 hrest

end Readable

/-- The files that `RecordDeps` writes: to a new file, or to one that was loaded before. -/
inductive RecordedFile : List UInt8 → Prop
  | new (calls : List Call) : RecordedFile (Writer.recordAll { log := {} } calls).close.file
  | more {file : List UInt8} {t : Loader} (h : RecordedFile file)
      (hload : load (Loader.start file) = .ok none t) (calls : List Call) :
      RecordedFile (t.writer.recordAll calls).close.file

lemma RecordedFile.entries {file : List UInt8} (h : RecordedFile file) :
    ∃ bytes xs, file = header ++ bytes ∧ parseAll [] bytes = (xs, true) ∧
      Written (fun _ => True) {} xs ∧ ∀ x ∈ xs, x.stored = x := by
  induction h with
  | new calls =>
    obtain ⟨xs, hxs, -, hcontent⟩ := Writer.recordAll_appends { log := {} } calls .empty
    obtain ⟨ys, hparse, hys⟩ := hxs.reread (show ({} : Log).nodes.length = _ from rfl)
    exact ⟨_, ys, by rw [Writer.close_file, hcontent]; rfl, hparse, hys⟩
  | @more file t h hload calls ih =>
    obtain ⟨bytes, xs, rfl, hparse, hwritten, hstored⟩ := ih
    obtain ⟨xs', hparse', hlog, hfile⟩ := load_leaves hload
    obtain ⟨rfl, -⟩ := Prod.mk.inj (hparse.symm.trans hparse')
    obtain ⟨good, bad, hrec⟩ := exists_recovered _ (Nat.lt_succ_self _) hparse
    rw [hrec.kept] at hfile
    obtain ⟨ys, hys, -, hcontent⟩ := writer_content hrec hlog hfile calls
    cases hr : (reading (bytes.length + 1) [] bytes).2 with
    | true =>
      exact ⟨_, xs, hcontent, hrec.parseAll_bad hr _, hwritten, hstored⟩
    | false =>
      obtain ⟨zs, hparse₂, hzs, hstored'⟩ := hys.reread (show t.log.nodes.length = _ from rfl)
      have hnodes : t.log.nodes = [] ++ xs.filterMap Entry.path? := by
        rw [hlog, replay_nodes]
      rw [hrec.clean hr, nil_append] at hcontent
      refine ⟨_, xs ++ zs, hcontent, ?_, ?_, ?_⟩
      · rw [hrec.spells.parseAll, ← hnodes, hparse₂]
      · exact written_append.mpr ⟨hwritten, hlog ▸ hzs⟩
      · intro x hx
        rcases mem_append.mp hx with hx | hx
        · exact hstored x hx
        · exact hstored' x hx

/-! ### Copying the live records -/

/-- What the new log has for a node when the records before an old id were copied. -/
def Log.liveBefore (w : World) (log : Log) (i : Nat) (n : Path) : Except Failure (Option Record) :=
  if w.isDepsEntryLiveFor n ∧ log.ids n < i then log.getDeps n else .ok none

section Copy

variable {w : World} {log : Log} {i : Nat} {n : Path}

lemma Log.liveBefore_zero : log.liveBefore w 0 n = .ok none := by
  rw [liveBefore]
  split
  next h => exact getDeps_of_neg h.2
  next => rfl

lemma Log.liveBefore_of_le (h : log.deps.length ≤ i) :
    log.liveBefore w i n = if w.isDepsEntryLiveFor n then log.getDeps n else .ok none := by
  rw [liveBefore]
  by_cases hid : log.ids n < i
  · simp only [hid, and_true]
  · have hnone : log.getDeps n = .ok none := by
      rw [getDeps, if_pos (.inr (by omega))]
    rw [hnone, if_neg fun hlive => hid hlive.2, ite_self]

lemma Log.liveBefore_succ : log.liveBefore w (i + 1) n =
    if w.isDepsEntryLiveFor n ∧ log.ids n = i then .ok (log.depsAt i)
    else log.liveBefore w i n := by
  by_cases hid : log.ids n = i
  · have hlt : log.ids n < ↑(i + 1) := by omega
    have hge : ¬ log.ids n < i := by omega
    rw [liveBefore, liveBefore, getDeps_of_nonneg (by omega), hid, Int.toNat_natCast]
    rw [hid] at hlt hge
    simp only [hlt, hge, and_true, and_false, if_false]
  · have hlt : log.ids n < ↑(i + 1) ↔ log.ids n < i := by omega
    have hother : ¬ (w.isDepsEntryLiveFor n = true ∧ log.ids n = i) := fun h => hid h.2
    rw [if_neg hother, liveBefore, liveBefore]
    simp only [hlt]

lemma Log.liveBefore_skip (h : log.depsAt i = none) :
    log.liveBefore w (i + 1) n = log.liveBefore w i n := by
  rw [liveBefore_succ]
  split
  next hlive =>
    have hge : ¬ log.ids n < i := by omega
    rw [h, liveBefore, if_neg fun hlive => hge hlive.2]
  next => rfl

lemma Log.Numbered.ids_eq_iff (h : log.Numbered) (hn : log.nodes[i]? = some n) {m : Path} :
    log.ids m = i ↔ m = n := by
  constructor
  · intro hm
    have hat := h.getElem?_ids (n := m) (by omega)
    rw [hm, Int.toNat_natCast, hn] at hat
    exact (Option.some.inj hat).symm
  · rintro rfl
    exact h.ids i m hn

lemma copyIfLive_leaves (h : log.Readable) (hr : log.depsAt i = some r)
    (hn : log.nodes[i]? = some n) {s : Writer} (hs : s.log.Tidy)
    (hdeps : ∀ m, s.log.getDeps m = log.liveBefore w i m) :
    Leaves (log.liveBefore w (i + 1)) (copyIfLive w n r s) := by
  have hstep : ∀ m, log.liveBefore w (i + 1) m =
      if w.isDepsEntryLiveFor m ∧ m = n then .ok (some r) else s.log.getDeps m := by
    intro m
    simp only [liveBefore_succ, h.tidy.numbered.ids_eq_iff hn, hr, hdeps]
  obtain ⟨ps, hnodes, hps, hsize⟩ := (h.record i r hr).nodes
  have hpath : ∀ p ∈ ps, ¬ Refused p := fun p hp =>
    (h.path p (mem_of_mem_take (hps p hp))).1
  rw [copyIfLive]
  by_cases hlive : w.isDepsEntryLiveFor n = true
  · rw [if_pos hlive, hnodes]
    obtain ⟨a, t, hrun, htidy, hleft⟩ := recordDeps_leaves hs r.mtime
      (h.path n (mem_of_getElem? hn)).1 hpath hsize
    refine ⟨a, t, hrun, htidy, fun m => ?_⟩
    rw [hleft, hstep, ← hnodes]
    simp only
    by_cases hmn : m = n
    · rw [if_pos hmn, if_pos ⟨hmn ▸ hlive, hmn⟩]
    · rw [if_neg hmn, if_neg fun hm => hmn hm.2]
  · rw [if_neg hlive]
    refine ⟨(), s, rfl, hs, fun m => ?_⟩
    rw [hstep, if_neg]
    rintro ⟨hm, rfl⟩
    exact hlive hm

lemma copyRecords_leaves (h : log.Readable) (ds : List (Option Record))
    (hi : log.deps.drop i = ds) {s : Writer} (hs : s.log.Tidy)
    (hdeps : ∀ m, s.log.getDeps m = log.liveBefore w i m) :
    Leaves (fun m => if w.isDepsEntryLiveFor m then log.getDeps m else .ok none)
      (copyRecords w log.nodes i ds s) := by
  induction ds generalizing i s with
  | nil =>
    refine ⟨(), s, rfl, hs, fun m => ?_⟩
    rw [hdeps, liveBefore_of_le (drop_eq_nil_iff.mp hi)]
  | cons d ds ih =>
    have hat : log.deps[i]? = some d := by rw [← head?_drop, hi, head?_cons]
    have hrest : log.deps.drop (i + 1) = ds := by rw [← drop_drop, hi]; rfl
    have hdepsAt : log.depsAt i = d := by rw [depsAt, hat]; rfl
    cases d with
    | none => exact ih hrest hs fun m => (hdeps m).trans (liveBefore_skip hdepsAt).symm
    | some r =>
      have hlt := h.tidy.listed i r hdepsAt
      have hn := getElem?_eq_getElem hlt
      obtain ⟨a, t, hrun, htidy, hleft⟩ := copyIfLive_leaves h hdepsAt hn hs hdeps
      have hloop : copyRecords w log.nodes i (some r :: ds) s =
          copyRecords w log.nodes (i + 1) ds t := by
        simp only [copyRecords, index, hn, orThrow, bind_apply, pure_apply, hrun]
      rw [hloop]
      exact ih hrest htidy hleft

lemma copyRecords_appends (h : log.Readable) (ds : List (Option Record))
    (hi : log.deps.drop i = ds) (s : Writer) :
    Moves (Writer.Appends (· ∈ log.reached)) s (copyRecords w log.nodes i ds) := by
  induction ds generalizing i s with
  | nil => exact .pure _
  | cons d ds ih =>
    have hat : log.deps[i]? = some d := by rw [← head?_drop, hi, head?_cons]
    have hrest : log.deps.drop (i + 1) = ds := by rw [← drop_drop, hi]; rfl
    cases d with
    | none => exact ih hrest s
    | some r =>
      have hr := depsAt_eq_some.mpr hat
      obtain ⟨n, hn⟩ : ∃ n, log.nodes[i]? = some n :=
        ⟨_, getElem?_eq_getElem (h.tidy.listed i r hr)⟩
      have hreached : n ∈ log.reached := by
        refine mem_iff_getElem?.mpr ⟨i, ?_⟩
        rw [reached, getElem?_take, if_pos (h.out i r hr), hn]
      obtain ⟨ps, hnodes, hps, -⟩ := (h.record i r hr).nodes
      simp only [copyRecords, index, hn, orThrow]
      refine .bind (.pure _) fun n' s₁ hpure => ?_
      obtain ⟨rfl, rfl⟩ := pure_ok.mp hpure
      refine .bind ?_ fun _ s₂ _ => ih hrest s₂
      rw [copyIfLive, hnodes]
      exact .ite (fun _ => recordDeps_appends _ (h.record i r hr).mtime hreached hps)
        fun _ => .pure _

end Copy

lemma Log.Numbered.renewed (h : log.Numbered) : log.renewed = {} := by
  have hids : (fun n => if n ∈ log.nodes then -1 else log.ids n) = fun _ => (-1 : Int) := by
    funext n
    split
    next => rfl
    next hn => exact h.others n hn
  rw [Log.renewed, hids]

lemma Log.Readable.plain (h : log.Readable) : Plain {} log.reached := by
  intro p hp
  refine .inr ⟨(h.path p (mem_of_mem_take hp)).2, ?_⟩
  have hdedup := (dedup_sublist log.reached).length_le
  have htake : log.reached.length ≤ 2 ^ 32 := length_take_le _ _
  simp only [length_nil, Nat.zero_add]
  exact hdedup.trans htake

/-- **Recompaction.** A log that was loaded from a file written by `RecordDeps` is rewritten without
an error. The new log has the live records of the old one and no others, its ids are the places of
its nodes, and the new file is loaded with the same records. -/
theorem recompact_preserves (w : World) {file : List UInt8} (h : RecordedFile file) (s : Writer) :
    ∃ t s', load (Loader.start file) = .ok none t ∧ recompact w t.log s = .ok () s' ∧
      (∀ n, s'.log.getDeps n =
        if w.isDepsEntryLiveFor n then t.log.getDeps n else .ok none) ∧
      s'.log.Numbered ∧
      ∃ t', load (Loader.start s'.file) = .ok none t' ∧
        ∀ n, t'.log.getDeps n = s'.log.getDeps n := by
  obtain ⟨bytes, xs, rfl, hparse, hwritten, hstored⟩ := h.entries
  obtain ⟨t, hload, hlog⟩ := load_header hparse
  have hread : t.log.Readable := hlog ▸ Log.Readable.empty.replay hwritten hstored
  have hempty : ∀ m, ({} : Log).getDeps m = t.log.liveBefore w 0 m := fun m => by
    rw [liveBefore_zero]
    exact getDeps_of_neg (show (-1 : Int) < 0 by decide)
  obtain ⟨_, s₁, hrun, htidy, hdeps⟩ :=
    copyRecords_leaves (i := 0) (s := { log := {} }) hread t.log.deps rfl Log.Readable.empty.tidy
      hempty
  have happend := (copyRecords_appends (i := 0) hread t.log.deps rfl _).of_ok hrun
  obtain ⟨t', hload', hlog'⟩ := load_appended hread.plain happend
  refine ⟨t, { s₁ with file := s₁.content, isOpen := true }, hload, ?_, hdeps, htidy.numbered, t',
    hload', fun n => by rw [hlog']⟩
  simp only [recompact, bind_apply, modify_apply, hread.tidy.numbered.renewed, hrun,
    openForWriteIfNeeded_apply]

/-- A graph in which a rule with `deps = gcc` makes the file `a`, and nothing makes another file. -/
def gccWorld : World :=
  { nodes := fun n => if n = [97] then { inEdge := some 0 } else {}
    edges := fun _ => { rule := fun k => if k = .deps then some "gcc" else none } }

theorem recompact_preserves_sample : ∃ t s',
    load (Loader.start (Writer.recordAll { log := {} } sampleCalls).close.file) = .ok none t ∧
      recompact gccWorld t.log { log := {} } = .ok () s' ∧
      s'.log.getDeps [97] = t.log.getDeps [97] ∧ s'.log.getDeps [98] = .ok none := by
  obtain ⟨t, s', hload, hrun, hdeps, -⟩ :=
    recompact_preserves gccWorld (.new sampleCalls) { log := {} }
  refine ⟨t, s', hload, hrun, ?_, ?_⟩
  · rw [hdeps, if_pos (by decide +kernel)]
  · rw [hdeps, if_neg (by decide)]

end Reninja.DepsFile
