import Reninja.DepsLog.Record
import Reninja.Library.Numerals

/-!
# Writing a deps log and reading it back

What `RecordDeps` wrote is read back as it was written, as long as the paths survive the padding of
their records and the ids fit into the 32 bits that they have in the file.
-/

namespace Reninja.DepsFile

open Program Numerals Writer List

variable {xs : List Entry} {n : Path}

lemma Log.getDeps_of_nonneg {log : Log} (h : 0 ≤ log.ids n) :
    log.getDeps n = .ok (log.depsAt (log.ids n).toNat) := by
  rw [Log.getDeps, Log.depsAt]
  by_cases hlen : (log.ids n).toNat < log.deps.length
  · rw [if_neg (by omega), index, getElem?_eq_getElem hlen]
    rfl
  · rw [if_pos (by omega), getElem?_eq_none (by omega)]
    rfl

lemma Log.Numbered.getDeps_eq {log : Log} (h : log.Numbered) {i : Nat} {n : Path}
    (hn : log.nodes[i]? = some n) : log.getDeps n = .ok (log.depsAt i) := by
  have hid := h.ids i n hn
  rw [Log.getDeps_of_nonneg (by omega), hid, Int.toNat_natCast]

lemma storedPath_eq_self {p : Path} (h : p.getLast? ≠ some 0) : storedPath p = p := by
  have htrim : trimNul p = p := by rw [trimNul, if_neg h]
  have hcases : pathPadding p = 0 ∨ pathPadding p = 1 ∨ pathPadding p = 2 ∨ pathPadding p = 3 := by
    have : pathPadding p < 4 := Nat.mod_lt _ (by decide)
    omega
  unfold storedPath padded
  rcases hcases with hp | hp | hp | hp
  · simp [hp, htrim]
  · rw [hp, replicate_succ, replicate_zero, trimNul_append_nul, htrim, htrim]
  · have htwo : p ++ replicate 2 0 = (p ++ [0]) ++ [0] := by simp [replicate_succ]
    rw [hp, htwo, trimNul_append_nul, trimNul_append_nul, htrim]
  · have hthree : p ++ replicate 3 0 = ((p ++ [0]) ++ [0]) ++ [0] := by
      simp [replicate_succ]
    rw [hp, hthree, trimNul_append_nul, trimNul_append_nul, trimNul_append_nul]

lemma bmod_int64 {t : Int} (hlow : -2 ^ 63 ≤ t) (hhigh : t < 2 ^ 63) :
    Int.bmod t (2 ^ 64) = t := Int.bmod_eq_of_le (by omega) (by omega)

/-- The log and the paths that are going to be named in it: a path has one of the ids that fit into
the file, or it is read back as it is and there will be no more ids than fit. -/
def Plain (log : Log) (paths : List Path) : Prop :=
  ∀ p ∈ paths, p ∈ log.nodes.take (2 ^ 32) ∨
    storedPath p = p ∧ log.nodes.length + paths.dedup.length ≤ 2 ^ 32

section Plain

variable {log : Log} {paths : List Path} {xs : List Entry}

lemma Plain.id_lt (hplain : Plain log paths) (hnum : log.Numbered)
    (hxs : Written (· ∈ paths) log xs) {id : Nat} (hid : (log.replay xs).nodes[id]? = some n)
    (hn : n ∈ paths) : id < 2 ^ 32 := by
  obtain ⟨hnodup, hnamed⟩ := hxs.paths hnum
  rw [Log.replay_nodes] at hid
  rcases hplain n hn with hold | ⟨-, hroom⟩
  · obtain ⟨j, hj⟩ := mem_iff_getElem?.mp hold
    rw [getElem?_take] at hj
    split at hj
    next hlt =>
      have hj' : (log.nodes ++ xs.filterMap Entry.path?)[j]? = some n := by
        obtain ⟨hjlen, -⟩ := List.getElem?_eq_some_iff.mp hj
        rwa [getElem?_append_left hjlen]
      obtain ⟨hidlen, -⟩ := List.getElem?_eq_some_iff.mp hid
      have heq : id = j := (getElem?_inj hidlen hnodup).mp (hid.trans hj'.symm)
      omega
    next => cases hj
  · obtain ⟨hidlen, -⟩ := List.getElem?_eq_some_iff.mp hid
    have hnew : (xs.filterMap Entry.path?).length ≤ paths.dedup.length := by
      refine (subperm_of_subset (List.Nodup.of_append_right hnodup) fun p hp => ?_).length_le
      exact mem_dedup.mpr (hnamed p hp)
    rw [length_append] at hidlen
    omega

lemma Plain.stored (hplain : Plain log paths) (hnum : log.Numbered)
    (hxs : Written (· ∈ paths) log xs) : ∀ x ∈ xs, x.stored = x := by
  intro x hx
  obtain ⟨ys, zs, rfl⟩ := append_of_mem hx
  obtain ⟨hys, hwritten, -⟩ := written_append.mp hxs
  cases x with
  | path p =>
    obtain ⟨hp, hnew, -⟩ := hwritten
    rw [Log.replay_nodes, mem_append, not_or] at hnew
    rcases hplain p hp with hold | ⟨hstored, -⟩
    · exact absurd (mem_of_mem_take hold) hnew.1
    · rw [Entry.stored, hstored]
  | deps out mtime ids =>
    obtain ⟨⟨n, hout, hn⟩, hids, -, hlow, hhigh⟩ := hwritten
    have hidsEq : ids.map (· % 2 ^ 32) = ids := by
      conv_rhs => rw [← map_id ids]
      refine map_congr_left fun id hid => ?_
      obtain ⟨m, hm, hnamed⟩ := hids id hid
      exact Nat.mod_eq_of_lt (hplain.id_lt hnum hys hm hnamed)
    rw [Entry.stored, Nat.mod_eq_of_lt (hplain.id_lt hnum hys hout hn), bmod_int64 hlow hhigh,
      hidsEq]

end Plain

/-! ### Loading what was written -/

def header : List UInt8 := fileSignature ++ intTo4Bytes currentVersion

lemma validHeader_header (bytes : List UInt8) : validHeader (header ++ bytes) = true := by
  have hlen : 16 ≤ (header ++ bytes).length := by
    rw [length_append]
    exact Nat.le_add_right 16 _
  have htake : (header ++ bytes).take 12 = fileSignature := rfl
  have hversion : fieldAt (header ++ bytes) 12 = currentVersion := by
    have h := fieldAt_append (a := fileSignature) (k := 12) rfl currentVersion bytes
    rwa [← append_assoc] at h
  simp only [validHeader, htake, hversion, decide_true, Bool.and_true, decide_eq_true_eq]
  exact hlen

lemma fileEntries_header (bytes : List UInt8) :
    fileEntries (header ++ bytes) = parseAll [] bytes := by
  have hlen : header.length = 16 := rfl
  rw [fileEntries, if_pos (validHeader_header bytes), drop_append_of_le_length (by rw [hlen]),
    drop_of_length_le (by rw [hlen]), nil_append]
  rfl

lemma load_err {file : List UInt8} {err : Option GoString} {t : Loader}
    (h : load (Loader.start file) = .ok err t) : err = none ↔ validHeader file = true := by
  obtain ⟨err', t', hheader, hvalid, -⟩ := loadHeader_ok file
  rw [load, bind_apply, hheader] at h
  cases err' with
  | some e =>
    obtain ⟨rfl, -⟩ := pure_ok.mp h
    exact hvalid
  | none =>
    obtain ⟨_, _, -, h⟩ := bind_ok.mp h
    obtain ⟨_, _, -, h⟩ := bind_ok.mp h
    obtain ⟨_, _, -, h⟩ := bind_ok.mp h
    obtain ⟨rfl, -⟩ := pure_ok.mp h
    exact hvalid

lemma load_header {bytes : List UInt8} (h : parseAll [] bytes = (xs, true)) :
    ∃ t, load (Loader.start (header ++ bytes)) = .ok none t ∧ t.log = Log.replay {} xs := by
  have hreads := load_reads (header ++ bytes)
  rw [fileEntries_header, h] at hreads
  obtain ⟨err, t, hload, hlog⟩ := hreads
  obtain rfl := (load_err hload).mpr (validHeader_header bytes)
  exact ⟨t, hload, hlog⟩

lemma replay_numbered {bytes : List UInt8} {b : Bool} (h : parseAll [] bytes = (xs, b)) :
    (Log.replay {} xs).Numbered := by
  have hnum : (Log.replay {} (parseAll [] bytes).1).Numbered := parse_numbered _ .empty _
  rwa [h] at hnum

lemma load_appended {paths : List Path} {s : Writer} (hplain : Plain {} paths)
    (h : Writer.Appends (· ∈ paths) { log := {} } s) :
    ∃ t, load (Loader.start s.content) = .ok none t ∧ t.log = s.log := by
  obtain ⟨xs, hxs, hlog, hcontent⟩ := h .empty
  have hparse := (hxs.spells (hplain.stored .empty hxs)).parseAll []
  rw [append_nil, parseAll_nil, append_nil] at hparse
  obtain ⟨t, hload, hloaded⟩ := load_header hparse
  exact ⟨t, by rw [hcontent]; exact hload, by rw [hloaded, hlog]⟩

/-- **Round trip.** The file that some calls of `RecordDeps` leave behind, started without a file,
is loaded with the ids and records that the writer has in memory. -/
theorem load_written (calls : List Call)
    (hpath : ∀ p ∈ calls.flatMap Call.paths, p.getLast? ≠ some 0)
    (hcount : (calls.flatMap Call.paths).dedup.length ≤ 2 ^ 32) :
    ∃ t, load (Loader.start ((recordAll { log := {} } calls).close.file)) = .ok none t ∧
      (∀ p, t.log.ids p = (recordAll { log := {} } calls).log.ids p) ∧
      ∀ p, t.log.getDeps p = (recordAll { log := {} } calls).log.getDeps p := by
  have hplain : Plain {} (calls.flatMap Call.paths) := by
    intro p hp
    refine .inr ⟨storedPath_eq_self (hpath p hp), ?_⟩
    simpa using hcount
  obtain ⟨t, hload, hlog⟩ := load_appended hplain (recordAll_appends { log := {} } calls)
  exact ⟨t, by rw [close_file]; exact hload, fun p => by rw [hlog], fun p => by rw [hlog]⟩

/-- Two calls, of which the second replaces the record of the first. -/
def sampleCalls : List Call := [⟨[97], 5, [[98], [99]]⟩, ⟨[97], -1, [[98]]⟩]

theorem load_written_sample : ∃ t,
    load (Loader.start ((recordAll { log := {} } sampleCalls).close.file)) = .ok none t ∧
      t.log.ids [99] = 2 ∧ t.log.getDeps [97] = .ok (some ⟨-1, [some [98]]⟩) := by
  obtain ⟨t, hload, hids, hdeps⟩ := load_written sampleCalls (by decide) (by decide)
  refine ⟨t, hload, ?_, ?_⟩
  · rw [hids]
    decide
  · rw [hdeps]
    decide

/-! ### More ids than the file has room for -/

lemma Writer.record_new {s : Writer} (hnum : s.log.Numbered) (hn : n ∉ s.log.nodes)
    (hrefused : ¬ Refused n) :
    (s.record ⟨n, 0, []⟩).log = (s.log.addNode n).updateDeps s.log.nodes.length ⟨0, []⟩ := by
  have hid : s.log.ids n < 0 := by
    rw [hnum.others n hn]
    decide
  have hrest : recordDeps n 0 [] s = writeDeps n 0 []
      { log := s.log.addNode n
        file := s.content ++ (Entry.path n).bytes s.log.nodes.length
        isOpen := true } := by
    obtain ⟨before, hbefore⟩ := (s.log.addNode n).getDeps_ok n
    simp only [recordDeps, recordIdIfMissing, recordMissingIds, bind_apply, get_apply, if_pos hid,
      recordId_apply hrefused, pure_apply, hbefore, orThrow]
    simp
  have hzero : (0 : Int64).toInt = 0 := rfl
  rw [record, map_nil, hzero, hrest, writeDeps_log _ n 0 (by decide)]
  simp [Log.addNode]

def numberCalls (n : Nat) : List Call :=
  (range n).map fun i => ⟨format 10 i, 0, []⟩

lemma format_last_ne_zero (i : Nat) : (format 10 i).getLast? ≠ some 0 := by
  intro h
  have hdigit := isDigit_format (show 1 < 10 by decide) (by decide) i 0
    (mem_of_getLast? h)
  exact absurd hdigit (by decide)

lemma format_not_refused {i : Nat} (h : i < 10 ^ 11) : ¬ Refused (format 10 i) := by
  have hlen := format_length_of_lt (show 1 < 10 by decide) (show 0 < 11 by decide) h
  have hpadding : pathPadding (format 10 i) < 4 := Nat.mod_lt _ (by decide)
  have hmax : 19 < maxRecordSize := by decide
  rintro (hempty | hlong)
  · exact format_ne_nil i hempty
  · omega

lemma recordAll_numbered (calls : List Call) :
    (recordAll { log := {} } calls).log.Numbered := by
  obtain ⟨xs, hxs, hlog, -⟩ := recordAll_appends { log := {} } calls .empty
  exact hlog ▸ hxs.numbered .empty

lemma recordAll_numberCalls_succ (n : Nat) :
    recordAll { log := {} } (numberCalls (n + 1)) =
      (recordAll { log := {} } (numberCalls n)).record ⟨format 10 n, 0, []⟩ := by
  simp [recordAll, numberCalls, range_succ]

lemma format_notMem_range (n : Nat) :
    format 10 n ∉ (range n).map (format 10) := by
  rw [mem_map]
  rintro ⟨i, hi, heq⟩
  obtain rfl := format_injective (by decide) (by decide) heq
  exact absurd (mem_range.mp hi) (Nat.lt_irrefl _)

lemma numberCalls_nodes {n : Nat} (h : n ≤ 10 ^ 11) :
    (recordAll { log := {} } (numberCalls n)).log.nodes =
      (range n).map (format 10) := by
  induction n with
  | zero => rfl
  | succ n ih =>
    have hnodes := ih (by omega)
    rw [recordAll_numberCalls_succ, record_new (recordAll_numbered _)
      (by rw [hnodes]; exact format_notMem_range n) (format_not_refused (by omega))]
    simp [Log.updateDeps, Log.addNode, hnodes, range_succ]

lemma filterMap_path?_stored (h : ∀ p, .path p ∈ xs → storedPath p = p) :
    (xs.map Entry.stored).filterMap Entry.path? = xs.filterMap Entry.path? := by
  rw [filterMap_map]
  refine filterMap_congr fun x hx => ?_
  cases x with
  | path p => simp [Entry.stored, Entry.path?, h p hx]
  | deps out mtime ids => rfl

/-- No record that was read back is for an output that does not fit. -/
lemma lastDeps_stored {out known : Nat} (hout : 2 ^ 32 ≤ out) (xs : List Entry) :
    lastDeps out known (xs.map Entry.stored) = none := by
  cases hlast : lastDeps out known (xs.map Entry.stored) with
  | none => rfl
  | some l =>
    obtain ⟨x, -, hx⟩ := mem_map.mp (mem_of_lastDeps hlast)
    cases x with
    | path p => cases hx
    | deps o mtime ids =>
      obtain ⟨rfl, -⟩ := Entry.deps.inj hx
      omega

/-- The last of more calls than there are ids in the file is not read back. -/
lemma load_numberCalls {n : Nat} (hlow : 2 ^ 32 ≤ n) (hhigh : n < 10 ^ 11) :
    ∃ t, load (Loader.start
        ((recordAll { log := {} } (numberCalls (n + 1))).close.file)) = .ok none t ∧
      t.log.getDeps (format 10 n) ≠
        (recordAll { log := {} } (numberCalls (n + 1))).log.getDeps
          (format 10 n) := by
  obtain ⟨xs, hxs, hlog, hcontent⟩ :=
    recordAll_appends { log := {} } (numberCalls (n + 1)) .empty
  have hpaths : ∀ p, .path p ∈ xs → storedPath p = p := by
    intro p hp
    have hnamed := (hxs.paths .empty).2 p (mem_filterMap.mpr ⟨_, hp, rfl⟩)
    obtain ⟨c, hc, hp⟩ := mem_flatMap.mp hnamed
    obtain ⟨i, -, rfl⟩ := mem_map.mp hc
    obtain rfl : p = format 10 i := by simpa [Call.paths] using hp
    exact storedPath_eq_self (format_last_ne_zero i)
  have hparse := (hxs.spells_stored hpaths).parseAll []
  rw [append_nil, parseAll_nil, append_nil] at hparse
  obtain ⟨t, hload, hlog'⟩ := load_header hparse
  refine ⟨t, by rw [close_file, hcontent]; exact hload, ?_⟩
  have hnodes := numberCalls_nodes (n := n + 1) (by omega)
  have hat : (recordAll { log := {} } (numberCalls (n + 1))).log.nodes[n]? =
      some (format 10 n) := by
    simp [hnodes]
  have hsame : t.log.nodes =
      (recordAll { log := {} } (numberCalls (n + 1))).log.nodes := by
    rw [hlog', hlog, Log.replay_nodes, Log.replay_nodes, filterMap_path?_stored hpaths]
  have hnum : t.log.Numbered := hlog' ▸ replay_numbered hparse
  have hloaded : t.log.depsAt n = none := by
    rw [hlog', Log.replay_depsAt, lastDeps_stored hlow]
    rfl
  have hwritten : (recordAll { log := {} } (numberCalls (n + 1))).log.depsAt n =
      some ⟨0, []⟩ := by
    have hold := numberCalls_nodes (n := n) (by omega)
    rw [recordAll_numberCalls_succ, record_new (recordAll_numbered _)
      (by rw [hold]; exact format_notMem_range n) (format_not_refused hhigh),
      Log.depsAt_updateDeps, hold, length_map, length_range, if_pos rfl]
  rw [hnum.getDeps_eq (hsame ▸ hat), (recordAll_numbered _).getDeps_eq hat, hloaded, hwritten]
  simp

/-- With one node more than there are ids in the file, the record of the last is lost. -/
theorem load_written_overflow : ∃ calls t,
    (∀ p ∈ calls.flatMap Call.paths, p ≠ [] ∧ p.getLast? ≠ some 0) ∧
    load (Loader.start ((recordAll { log := {} } calls).close.file)) = .ok none t ∧
    ∃ p, t.log.getDeps p ≠ (recordAll { log := {} } calls).log.getDeps p := by
  obtain ⟨t, hload, hdeps⟩ := load_numberCalls (Nat.le_refl (2 ^ 32)) (by norm_num)
  refine ⟨_, t, fun p hp => ?_, hload, _, hdeps⟩
  obtain ⟨c, hc, hp⟩ := mem_flatMap.mp hp
  obtain ⟨i, -, rfl⟩ := mem_map.mp hc
  obtain rfl : p = format 10 i := by simpa [Call.paths] using hp
  exact ⟨format_ne_nil i, format_last_ne_zero i⟩

end Reninja.DepsFile
