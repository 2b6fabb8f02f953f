import Reninja.DepsLog.Load

/-!
# When a loaded deps log is sound

For each output the last record counts, and it is resolved against the paths that come before
it. This gives the exact files after whose loading the log is sound and can be used.
-/

namespace Reninja.DepsFile

open Program Log List

variable {nodes : List (Option Path)} {log : Log} {ids : List Nat} {l : LastDeps} {out : Nat}

def Log.depsAt (log : Log) (out : Nat) : Option Record := log.deps[out]?.getD none

lemma Log.depsAt_eq_some {r : Record} :
    log.depsAt out = some r ↔ log.deps[out]? = some (some r) := by
  rw [depsAt]
  cases log.deps[out]? with
  | none => simp
  | some d => simp

lemma Log.depsAt_updateDeps (log : Log) (out : Nat) (r : Record) (o : Nat) :
    (log.updateDeps out r).depsAt o = if o = out then some r else log.depsAt o := by
  rw [depsAt, updateDeps, getElem?_set]
  by_cases h : out = o
  · subst h
    have hlen : out < log.deps.length + (out + 1 - log.deps.length) := by omega
    simp [hlen]
  · rw [if_neg h, if_neg (Ne.symm h), getElem?_append]
    split
    · rfl
    · rename_i hlen
      rw [depsAt, getElem?_eq_none (not_lt.mp hlen), getElem?_replicate]
      split <;> rfl

/-- A record, with the number of paths that come before it. -/
structure LastDeps where
  known : Nat
  mtime : TimeStamp
  ids : List Nat

/-- The last record of an output among some records, after a number of paths. -/
def lastDeps (out : Nat) : Nat → List Entry → Option LastDeps
  | _, [] => none
  | known, .path _ :: xs => lastDeps out (known + 1) xs
  | known, .deps o mtime ids :: xs =>
    (lastDeps out known xs).or (if out = o then some ⟨known, mtime, ids⟩ else none)

lemma Log.replay_nodes (log : Log) (xs : List Entry) :
    (log.replay xs).nodes = log.nodes ++ xs.filterMap Entry.path? := by
  induction xs generalizing log with
  | nil => simp [replay]
  | cons x xs ih =>
    have h := ih (log.apply x)
    rw [apply_nodes] at h
    rw [replay, foldl_cons, ← replay, h]
    cases x <;> simp [Entry.path?, filterMap_cons]

lemma Log.replay_depsAt (log : Log) (xs : List Entry) (out : Nat) :
    (log.replay xs).depsAt out =
      ((lastDeps out log.nodes.length xs).map fun l =>
        ⟨l.mtime, (nodesWithIds ((log.replay xs).nodes.take l.known) l.ids).1⟩).or
      (log.depsAt out) := by
  induction xs generalizing log with
  | nil => simp [replay, lastDeps]
  | cons x xs ih =>
    have h := ih (log.apply x)
    rw [replay, foldl_cons, ← replay, h]
    cases x with
    | path p =>
      rw [lastDeps, apply_nodes]
      simp only [Entry.path?, Option.toList_some, length_append, length_singleton]
      rfl
    | deps o mtime ids =>
      have hnodes : (log.apply (.deps o mtime ids)).nodes = log.nodes := by
        rw [apply_nodes]
        simp [Entry.path?]
      have htake : ((log.apply (.deps o mtime ids)).replay xs).nodes.take log.nodes.length =
          log.nodes := by
        rw [replay_nodes, hnodes]
        simp
      rw [lastDeps, hnodes]
      cases lastDeps out log.nodes.length xs with
      | some l => rfl
      | none =>
        simp only [Option.map_none, Option.none_or]
        rw [apply, depsAt_updateDeps]
        rw [apply] at htake
        by_cases ho : out = o
        · simp [ho, htake]
        · simp [ho]

/-- A record is free of nil pointers exactly when all its ids are known. -/
lemma none_notMem_nodesWithIds {nodes : List Path} :
    none ∉ (nodesWithIds nodes ids).1 ↔ ∀ id ∈ ids, id < nodes.length := by
  induction ids with
  | nil => simp [nodesWithIds]
  | cons id ids ih =>
    rw [nodesWithIds]
    cases hn : nodes[id]? with
    | none =>
      have hid := getElem?_eq_none_iff.mp hn
      simp [hid]
    | some n =>
      obtain ⟨hid, -⟩ := List.getElem?_eq_some_iff.mp hn
      simp [ih, hid]

lemma nodesWithIds_of_known {nodes : List Path} (h : ∀ id ∈ ids, id < nodes.length) :
    (nodesWithIds nodes ids).1 = (ids.filterMap (nodes[·]?)).map some := by
  induction ids with
  | nil => rfl
  | cons id ids ih =>
    have hid : id < nodes.length := h id (by simp)
    have hrest := ih fun i hi => h i (by simp [hi])
    rw [nodesWithIds, getElem?_eq_getElem hid]
    simp [hrest, getElem?_eq_getElem hid]

/-- The log as it should be after `Load`. -/
structure Log.Sound (log : Log) : Prop where
  nonNil : ∀ (i : Nat) r, log.deps[i]? = some (some r) → none ∉ r.nodes
  indices : ∀ (i : Nat) r, log.deps[i]? = some (some r) → i < log.nodes.length
  ids : ∀ (i : Nat) n, log.nodes[i]? = some n → log.ids n = i

lemma Log.getDeps_ok (log : Log) (n : Path) : ∃ r, log.getDeps n = .ok r := by
  rw [getDeps]
  split_ifs with h
  · exact ⟨none, rfl⟩
  · have hlt : (log.ids n).toNat < log.deps.length := by omega
    exact ⟨_, by rw [index, getElem?_eq_getElem hlt]⟩

lemma hasNode_ok {n : Path} (h : none ∉ nodes) : ∃ b, hasNode n nodes = .ok b := by
  induction nodes with
  | nil => exact ⟨false, rfl⟩
  | cons m ms ih =>
    cases m with
    | none => simp at h
    | some m =>
      rw [hasNode]
      split_ifs
      · exact ⟨true, rfl⟩
      · exact ih fun hm => h (by simp [hm])

lemma Log.Sound.getFirstReverseDepsNode_ok (h : log.Sound) (n : Path) :
    ∃ r, log.getFirstReverseDepsNode n = .ok r := by
  have hgo : ∀ ds i, log.deps.drop i = ds →
      ∃ r, getFirstReverseDepsNode.go log n i ds = .ok r := by
    intro ds
    induction ds with
    | nil => exact fun i _ => ⟨none, rfl⟩
    | cons d ds ih =>
      intro i hi
      have hat : log.deps[i]? = some d := by
        rw [← head?_drop, hi, head?_cons]
      have hrest := ih (i + 1) (by rw [← drop_drop, hi]; rfl)
      cases d with
      | none => exact hrest
      | some r =>
        obtain ⟨b, hb⟩ := hasNode_ok (n := n) (h.nonNil i r hat)
        rw [getFirstReverseDepsNode.go, hb]
        cases b with
        | false => exact hrest
        | true => exact ⟨_, by rw [index, getElem?_eq_getElem (h.indices i r hat)]; rfl⟩
  exact hgo log.deps 0 rfl

/-! ### Rewriting a sound log -/

def firstRefused (paths : List Path) : Option Path := paths.find? fun p => Refused p

def Writer.Clean (s : Writer) : Prop := ∀ n, 0 ≤ s.log.ids n → ¬ Refused n

/-- The paths are recorded in turn. The first that cannot be is a panic if it is empty, and an
error if it is too long. -/
inductive Records {α : Type} (paths : List Path) : EStateM.Result Failure Writer α → Prop
  | done (a : α) (t : Writer) (hclean : t.Clean) (h : firstRefused paths = none) :
      Records paths (.ok a t)
  | panic (msg : GoString) (t : Writer) (h : firstRefused paths = some []) :
      Records paths (.error (.panic msg) t)
  | refused (msg : GoString) (t : Writer) (p : Path) (hp : p ≠ [])
      (h : firstRefused paths = some p) : Records paths (.error (.error msg) t)

section Records

variable {α β : Type} {ps qs : List Path} {s : Writer}

lemma Records.bind {m : W α} {f : α → W β} (hm : Records ps (m s))
    (hf : ∀ a t, t.Clean → Records qs (f a t)) : Records (ps ++ qs) ((m >>= f) s) := by
  have happend : firstRefused (ps ++ qs) = (firstRefused ps).or (firstRefused qs) :=
    find?_append
  rw [bind_apply]
  cases hr : m s with
  | ok a t =>
    rw [hr] at hm
    cases hm with
    | done _ _ hclean h =>
      rw [h, Option.none_or] at happend
      have hnext := hf a t hclean
      simp only
      generalize f a t = r at hnext ⊢
      cases hnext with
      | done b t' hclean' h' => exact .done b t' hclean' (happend.trans h')
      | panic msg t' h' => exact .panic msg t' (happend.trans h')
      | refused msg t' p hp h' => exact .refused msg t' p hp (happend.trans h')
  | error f t =>
    rw [hr] at hm
    cases hm with
    | panic msg _ h => exact .panic msg t (by rw [happend, h]; rfl)
    | refused msg _ p hp h => exact .refused msg t p hp (by rw [happend, h]; rfl)

lemma Records.pure (a : α) (h : s.Clean) : Records [] ((Pure.pure a : W α) s) :=
  .done a s h rfl

lemma Records.map {m : W α} {f : α → W β} (hm : Records ps (m s))
    (hf : ∀ a t, t.Clean → Records [] (f a t)) : Records ps ((m >>= f) s) := by
  have h := Records.bind hm hf
  rwa [append_nil] at h

lemma recordIdIfMissing_records (hclean : s.Clean) (n : Path) :
    Records [n] (recordIdIfMissing n s) := by
  have hfirst : firstRefused [n] = if Refused n then some n else none := by
    simp [firstRefused, find?_cons]
    split_ifs <;> simp_all
  simp only [recordIdIfMissing, bind_apply, get_apply]
  by_cases hid : s.log.ids n < 0
  · rw [if_pos hid, recordId]
    by_cases hempty : n = []
    · simp only [if_pos hempty, bind_apply, throw_apply]
      refine .panic _ s (hfirst.trans ?_)
      rw [if_pos (.inl hempty), hempty]
    · by_cases hlong : maxRecordSize < n.length + pathPadding n + 4
      · simp only [if_neg hempty, if_pos hlong, bind_apply, throw_apply]
        exact .refused _ s n hempty (by rw [hfirst, if_pos (.inr hlong)])
      · have hrefused : ¬ Refused n := not_or.mpr ⟨hempty, hlong⟩
        simp only [if_neg hempty, if_neg hlong]
        refine .done _ _ (fun m hm => ?_) (by rw [hfirst, if_neg hrefused])
        by_cases hmn : m = n
        · exact hmn ▸ hrefused
        · refine hclean m ?_
          simpa [addNode, Function.update_of_ne hmn, apply_ite Writer.log] using hm
  · rw [if_neg hid]
    exact .done _ s hclean (by rw [hfirst, if_neg (hclean n (by omega))])

lemma recordMissingIds_records (hclean : s.Clean) (ps : List Path) :
    Records ps (recordMissingIds (ps.map some) s) := by
  induction ps generalizing s with
  | nil => exact Records.pure false hclean
  | cons p ps ih =>
    exact Records.bind (recordIdIfMissing_records hclean p) fun _ t ht =>
      Records.map (ih ht) fun _ _ ht => Records.pure _ ht

lemma writeDeps_records (hclean : s.Clean) (n : Path) (mtime : TimeStamp)
    (hsize : 4 * (3 + nodes.length) ≤ maxRecordSize) : Records [] (writeDeps n mtime nodes s) := by
  rw [writeDeps]
  simp only
  rw [if_neg (by omega)]
  refine .done _ _ (fun m hm => hclean m ?_) rfl
  simpa [updateDeps, apply_ite Writer.log] using hm

lemma recordDeps_records (hclean : s.Clean) (n : Path) (mtime : TimeStamp) {ps : List Path}
    (hsize : 4 * (3 + ps.length) ≤ maxRecordSize) :
    Records (n :: ps) (recordDeps n mtime (ps.map some) s) := by
  refine Records.bind (recordIdIfMissing_records hclean n) fun change t ht => ?_
  refine Records.map (recordMissingIds_records ht ps) fun changes t ht => ?_
  obtain ⟨before, hbefore⟩ := t.log.getDeps_ok n
  simp only [bind_apply, get_apply, hbefore, orThrow, pure_apply]
  split_ifs
  · exact Records.pure _ ht
  · exact writeDeps_records ht n mtime (by simpa using hsize)

end Records

/-- The paths that `Recompact` records for an output of the old log. -/
def Log.copied (w : World) (log : Log) (out : Nat) : List Path :=
  match log.depsAt out, log.nodes[out]? with
  | some r, some n => if w.isDepsEntryLiveFor n then n :: r.nodes.filterMap id else []
  | _, _ => []

def Log.Bounded (log : Log) : Prop :=
  ∀ out r, log.depsAt out = some r → 4 * (3 + r.nodes.length) ≤ maxRecordSize

lemma map_some_filterMap (h : none ∉ nodes) : (nodes.filterMap id).map some = nodes := by
  induction nodes with
  | nil => rfl
  | cons m ms ih =>
    cases m with
    | none => simp at h
    | some m =>
      have hrest := ih fun hm => h (by simp [hm])
      exact congrArg (some m :: ·) hrest

lemma copyRecords_records (w : World) (hsound : log.Sound) (hbounded : log.Bounded)
    (ds : List (Option Record)) {i : Nat} (hi : log.deps.drop i = ds) {s : Writer}
    (hclean : s.Clean) : Records ((range' i ds.length).flatMap (log.copied w))
      (copyRecords w log.nodes i ds s) := by
  induction ds generalizing i s with
  | nil => exact Records.pure () hclean
  | cons d ds ih =>
    have hat : log.deps[i]? = some d := by rw [← head?_drop, hi, head?_cons]
    have hnext : log.deps.drop (i + 1) = ds := by rw [← drop_drop, hi]; rfl
    rw [length_cons, range'_succ, flatMap_cons]
    cases d with
    | none =>
      have hnone : log.copied w i = [] := by simp [copied, depsAt, hat]
      rw [hnone, nil_append]
      exact ih hnext hclean
    | some r =>
      have hlt := hsound.indices i r hat
      have hdeps := depsAt_eq_some.mpr hat
      have hn := getElem?_eq_getElem hlt
      have hindex : index log.nodes i = .ok log.nodes[i] := by rw [index, hn]
      simp only [copyRecords, hindex, orThrow]
      refine Records.bind (α := Unit) ?_ fun _ t ht => ih hnext ht
      rw [copied, hdeps, hn]
      simp only [copyIfLive]
      split_ifs
      · have hnodes := map_some_filterMap (hsound.nonNil i r hat)
        have hlen : (r.nodes.filterMap id).length = r.nodes.length := by
          rw [← length_map some, hnodes]
        have hsize : 4 * (3 + (r.nodes.filterMap id).length) ≤ maxRecordSize := by
          rw [hlen]
          exact hbounded i r hdeps
        have h := recordDeps_records hclean log.nodes[i] r.mtime hsize
        rwa [hnodes] at h
      · exact Records.pure () hclean

lemma recompact_records (w : World) (hsound : log.Sound) (hbounded : log.Bounded)
    (hnum : log.Numbered) (s : Writer) :
    Records ((range log.deps.length).flatMap (log.copied w)) (recompact w log s) := by
  have hclean : Writer.Clean { log := log.renewed } := by
    intro n hn
    simp only [renewed] at hn
    split_ifs at hn with hmem
    · omega
    · rw [hnum.others n hmem] at hn
      omega
  have hcopy := copyRecords_records w hsound hbounded log.deps (i := 0) rfl hclean
  rw [← range_eq_range'] at hcopy
  change Records _ ((copyRecords w log.nodes 0 log.deps >>= fun _ => openForWriteIfNeeded)
    { log := log.renewed })
  refine Records.map hcopy fun _ t ht => .done _ _ (fun n hn => ht n ?_) rfl
  simpa [apply_ite Writer.log] using hn

/-! ### Sound files -/

lemma parse_numbered (fuel : Nat) (hnum : log.Numbered) (bytes : List UInt8) :
    (log.replay (parse fuel log.nodes bytes).1).Numbered := by
  induction fuel generalizing log bytes with
  | zero => exact hnum
  | succ fuel ih =>
    rw [parse]
    cases hhead : parseHead log.nodes bytes with
    | stops => exact hnum
    | panics => exact hnum
    | entry x rest =>
      have h := ih (hnum.apply (parseHead_fits hhead).fresh) rest
      rwa [apply_nodes] at h

lemma parse_bounded (fuel : Nat) (known : List Path) (bytes : List UInt8) {mtime : TimeStamp}
    (h : .deps out mtime ids ∈ (parse fuel known bytes).1) :
    4 * (3 + ids.length) ≤ maxRecordSize := by
  induction fuel generalizing known bytes with
  | zero => cases h
  | succ fuel ih =>
    rw [parse] at h
    cases hhead : parseHead known bytes with
    | stops => simp [hhead] at h
    | panics => simp [hhead] at h
    | entry x rest =>
      rw [hhead] at h
      rcases mem_cons.mp h with hx | h
      · exact (parseHead_fits hhead).bounded out mtime ids hx.symm
      · exact ih _ _ h

lemma mem_of_lastDeps {out known : Nat} {xs : List Entry} (h : lastDeps out known xs = some l) :
    .deps out l.mtime l.ids ∈ xs := by
  induction xs generalizing known with
  | nil => cases h
  | cons x xs ih =>
    cases x with
    | path p => exact mem_cons_of_mem _ (ih h)
    | deps o mtime ids =>
      rw [lastDeps, Option.or_eq_some_iff] at h
      rcases h with h | ⟨-, h⟩
      · exact mem_cons_of_mem _ (ih h)
      · split_ifs at h with ho
        obtain rfl := Option.some.inj h
        rw [ho]
        exact mem_cons_self

section File

variable (w : World) (file : List UInt8)

def filePaths : List Path := (fileEntries file).1.filterMap Entry.path?

def fileDeps (out : Nat) : Option LastDeps := lastDeps out 0 (fileEntries file).1

def fileLog : Log := replay {} (fileEntries file).1

/-- The paths of the records that are still in use, in the order of their outputs. -/
def fileLivePaths : List Path :=
  (range (filePaths file).length).flatMap fun out =>
    match fileDeps file out, (filePaths file)[out]? with
    | some l, some n =>
      if w.isDepsEntryLiveFor n then n :: l.ids.filterMap ((filePaths file)[·]?) else []
    | _, _ => []

/-- A file after whose loading the log can be used: no record is too short for what it must
have, for each output the last record has only ids of paths before it, the output is one of the
paths, and the first path of a live record that cannot be recorded is not the empty one. -/
structure SafeFile : Prop where
  complete : (fileEntries file).2 = true
  known : ∀ out l, fileDeps file out = some l → ∀ id ∈ l.ids, id < l.known
  listed : ∀ out l, fileDeps file out = some l → out < (filePaths file).length
  named : firstRefused (fileLivePaths w file) ≠ some []

variable {w file}

lemma fileLog_nodes : (fileLog file).nodes = filePaths file := by
  rw [fileLog, replay_nodes]
  rfl

lemma fileLog_numbered : (fileLog file).Numbered := by
  rw [fileLog, fileEntries]
  split
  · exact parse_numbered _ .empty _
  · exact .empty

lemma fileLog_depsAt (out : Nat) :
    (fileLog file).depsAt out = (fileDeps file out).map fun l =>
      ⟨l.mtime, (nodesWithIds ((filePaths file).take l.known) l.ids).1⟩ := by
  have h := replay_depsAt {} (fileEntries file).1 out
  rw [← fileLog, fileLog_nodes] at h
  rw [h]
  exact Option.or_none

lemma lastDeps_known_le {out known : Nat} {xs : List Entry} (h : lastDeps out known xs = some l) :
    l.known ≤ known + (xs.filterMap Entry.path?).length := by
  induction xs generalizing known with
  | nil => cases h
  | cons x xs ih =>
    cases x with
    | path p =>
      have := ih h
      simp [Entry.path?]
      omega
    | deps o mtime ids =>
      rw [lastDeps, Option.or_eq_some_iff] at h
      have hpaths : (Entry.deps o mtime ids :: xs).filterMap Entry.path? =
          xs.filterMap Entry.path? := rfl
      rw [hpaths]
      rcases h with h | ⟨-, h⟩
      · exact ih h
      · split_ifs at h
        obtain rfl := Option.some.inj h
        simp

lemma fileDeps_known_le (h : fileDeps file out = some l) : l.known ≤ (filePaths file).length := by
  simpa [filePaths] using lastDeps_known_le h

lemma fileLog_bounded : (fileLog file).Bounded := by
  intro out r hr
  rw [fileLog_depsAt, Option.map_eq_some_iff] at hr
  obtain ⟨l, hl, rfl⟩ := hr
  have hmem := mem_of_lastDeps hl
  have hlen : ∀ nodes (ids : List Nat), (nodesWithIds nodes ids).1.length = ids.length := by
    intro nodes ids
    induction ids with
    | nil => rfl
    | cons id ids ih =>
      rw [nodesWithIds]
      cases nodes[id]? <;> simp [ih]
  simp only [hlen]
  rw [fileEntries] at hmem
  split at hmem
  · exact parse_bounded _ _ _ hmem
  · cases hmem

lemma fileLog_sound_iff : (fileLog file).Sound ↔
    (∀ out l, fileDeps file out = some l → ∀ id ∈ l.ids, id < l.known) ∧
      ∀ out l, fileDeps file out = some l → out < (filePaths file).length := by
  have hat : ∀ out l, fileDeps file out = some l → (fileLog file).deps[out]? =
      some (some ⟨l.mtime, (nodesWithIds ((filePaths file).take l.known) l.ids).1⟩) := by
    intro out l hl
    rw [← depsAt_eq_some, fileLog_depsAt, hl]
    rfl
  have hnil : ∀ out l, fileDeps file out = some l →
      (none ∉ (nodesWithIds ((filePaths file).take l.known) l.ids).1 ↔
        ∀ id ∈ l.ids, id < l.known) := by
    intro out l hl
    rw [none_notMem_nodesWithIds, length_take_of_le (fileDeps_known_le hl)]
  constructor
  · intro h
    refine ⟨fun out l hl => (hnil out l hl).mp (h.nonNil out _ (hat out l hl)), fun out l hl => ?_⟩
    rw [← fileLog_nodes]
    exact h.indices out _ (hat out l hl)
  · rintro ⟨hknown, hlisted⟩
    have hdeps : ∀ out r, (fileLog file).deps[out]? = some (some r) → ∃ l,
        fileDeps file out = some l ∧
          r.nodes = (nodesWithIds ((filePaths file).take l.known) l.ids).1 := by
      intro out r hr
      rw [← depsAt_eq_some, fileLog_depsAt, Option.map_eq_some_iff] at hr
      obtain ⟨l, hl, rfl⟩ := hr
      exact ⟨l, hl, rfl⟩
    refine ⟨fun out r hr => ?_, fun out r hr => ?_, fileLog_numbered.ids⟩
    · obtain ⟨l, hl, hnodes⟩ := hdeps out r hr
      rw [hnodes, hnil out l hl]
      exact hknown out l hl
    · obtain ⟨l, hl, -⟩ := hdeps out r hr
      rw [fileLog_nodes]
      exact hlisted out l hl

lemma flatMap_range_eq {f : Nat → List Path} {n m : Nat} (hn : ∀ i, n ≤ i → f i = [])
    (hm : ∀ i, m ≤ i → f i = []) : (range n).flatMap f = (range m).flatMap f := by
  have hadd : ∀ n k, (∀ i, n ≤ i → f i = []) →
      (range (n + k)).flatMap f = (range n).flatMap f := by
    intro n k hn
    induction k with
    | zero => rfl
    | succ k ih => simp [← Nat.add_assoc, range_succ, ih, hn (n + k) (by omega)]
  rcases Nat.le_total n m with h | h
  · obtain ⟨k, rfl⟩ := Nat.exists_eq_add_of_le h
    exact (hadd n k hn).symm
  · obtain ⟨k, rfl⟩ := Nat.exists_eq_add_of_le h
    exact hadd m k hm

/-- What `Recompact` copies, in terms of the records of the file. -/
lemma fileLog_copied (hknown : ∀ out l, fileDeps file out = some l → ∀ id ∈ l.ids, id < l.known) :
    (range (fileLog file).deps.length).flatMap ((fileLog file).copied w) =
      fileLivePaths w file := by
  have hcopied : (fileLog file).copied w = fun out =>
      match fileDeps file out, (filePaths file)[out]? with
      | some l, some n =>
        if w.isDepsEntryLiveFor n then n :: l.ids.filterMap ((filePaths file)[·]?) else []
      | _, _ => [] := by
    funext out
    rw [copied, fileLog_depsAt, fileLog_nodes]
    cases hl : fileDeps file out with
    | none => rfl
    | some l =>
      cases (filePaths file)[out]? with
      | none => rfl
      | some n =>
        have hlen := length_take_of_le (fileDeps_known_le hl)
        have hnodes : (nodesWithIds ((filePaths file).take l.known) l.ids).1 = _ :=
          nodesWithIds_of_known fun id hid => by
            rw [hlen]
            exact hknown out l hl id hid
        have hids : l.ids.filterMap (((filePaths file).take l.known)[·]?) =
            l.ids.filterMap ((filePaths file)[·]?) := by
          refine filterMap_congr fun id hid => ?_
          rw [getElem?_take, if_pos (hknown out l hl id hid)]
        simp only [Option.map_some, hnodes, hids, filterMap_map]
        simp
  rw [fileLivePaths, hcopied]
  refine flatMap_range_eq (fun i hi => ?_) fun i hi => ?_
  · have hnone : (fileLog file).depsAt i = none := by
      rw [depsAt, getElem?_eq_none hi]
      rfl
    rw [fileLog_depsAt, Option.map_eq_none_iff] at hnone
    rw [hnone]
  · rw [getElem?_eq_none hi]
    cases fileDeps file i <;> rfl

end File

/-- Loading a file leaves a sound log, on which nothing panics, exactly for the safe files. -/
theorem load_safe_iff (w : World) (file : List UInt8) :
    (∃ err t, load (Loader.start file) = .ok err t ∧ t.log.Sound ∧
      (∀ n, ∃ r, t.log.getDeps n = .ok r) ∧
      (∀ n, ∃ r, t.log.getFirstReverseDepsNode n = .ok r) ∧
      ∀ s msg s', recompact w t.log s ≠ .error (.panic msg) s') ↔ SafeFile w file := by
  have hreads := load_reads file
  cases hentries : fileEntries file with
  | mk entries complete =>
  rw [hentries] at hreads
  cases complete with
  | false =>
    obtain ⟨msg, t, hpanic⟩ := hreads
    constructor
    · rintro ⟨err, t', hok, -⟩
      rw [hpanic] at hok
      cases hok
    · intro h
      have := h.complete
      rw [hentries] at this
      cases this
  | true =>
    obtain ⟨err, t, hok, hlog⟩ := hreads
    have hfile : t.log = fileLog file := by rw [hlog, fileLog, hentries]
    have hpanic : (fileLog file).Sound → ∀ s, Records (fileLivePaths w file)
        (recompact w (fileLog file) s) := by
      intro hsound s
      have h := recompact_records w hsound fileLog_bounded fileLog_numbered s
      rwa [fileLog_copied (fileLog_sound_iff.mp hsound).1] at h
    constructor
    · rintro ⟨err', t', hok', hsound, -, -, hrec⟩
      rw [hok] at hok'
      obtain ⟨rfl, rfl⟩ : err = err' ∧ t = t' := by cases hok'; exact ⟨rfl, rfl⟩
      rw [hfile] at hsound hrec
      obtain ⟨hknown, hlisted⟩ := fileLog_sound_iff.mp hsound
      refine ⟨by rw [hentries], hknown, hlisted, fun hempty => ?_⟩
      cases hr : recompact w (fileLog file) { log := {} } with
      | ok a s =>
        have h := hpanic hsound { log := {} }
        rw [hr] at h
        cases h with
        | done _ _ _ hnone => rw [hempty] at hnone; cases hnone
      | error f s =>
        have h := hpanic hsound { log := {} }
        rw [hr] at h
        cases h with
        | panic msg => exact hrec _ _ _ hr
        | refused msg _ p hp hsome =>
          rw [hempty, Option.some.injEq] at hsome
          exact hp hsome.symm
    · intro h
      have hsound := fileLog_sound_iff.mpr ⟨h.known, h.listed⟩
      refine ⟨err, t, hok, hfile ▸ hsound, fun n => t.log.getDeps_ok n, fun n => ?_,
        fun s msg s' hr => ?_⟩
      · rw [hfile]
        exact hsound.getFirstReverseDepsNode_ok n
      · have hrec := hpanic hsound s
        rw [← hfile, hr] at hrec
        cases hrec with
        | panic _ _ hempty => exact h.named hempty

def unknownIdFile : List UInt8 :=
  fileSignature ++ [4, 0, 0, 0] ++ [8, 0, 0, 0, 97, 0, 0, 0, 255, 255, 255, 255] ++
    [16, 0, 0, 128, 0, 0, 0, 0, 0, 0, 0, 0, 0, 0, 0, 0, 7, 0, 0, 0]

def emptyRecordFile : List UInt8 := fileSignature ++ [4, 0, 0, 0] ++ [0, 0, 0, 128]

/-- An unknown id leaves a nil pointer in the log, and a record that is too short is a panic. -/
theorem load_unsafe :
    (∃ err t, load (Loader.start unknownIdFile) = .ok err t ∧ t.log.deps = [some ⟨0, [none]⟩] ∧
      t.log.getFirstReverseDepsNode [98] = .error nilDereference) ∧
    ∃ msg t, load (Loader.start emptyRecordFile) = .error (.panic msg) t := by
  have hunknown : fileEntries unknownIdFile = ([.path [97], .deps 0 0 [7]], true) := by
    decide
  have hempty : fileEntries emptyRecordFile = ([], false) := by decide
  have h₁ := load_reads unknownIdFile
  have h₂ := load_reads emptyRecordFile
  rw [hunknown] at h₁
  rw [hempty] at h₂
  obtain ⟨err, t, hok, hlog⟩ := h₁
  refine ⟨⟨err, t, hok, ?_, ?_⟩, h₂⟩
  · rw [hlog]
    rfl
  · rw [hlog]
    rfl

end Reninja.DepsFile
