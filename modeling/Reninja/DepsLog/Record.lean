import Reninja.DepsLog.Bytes
import Reninja.DepsLog.Safe

/-!
# What recording appends to the deps log

A call of `RecordDeps` appends the bytes of some records to the file and does to the log in memory
what these records say, also when it returns an error half way. Loading the file therefore gives
the log in memory, if the records are read back as they were written.
-/

namespace Reninja.DepsFile

open Program List

variable {x : Entry}

/-! ### Records that are written -/

def Entry.Written (named : Path → Prop) (log : Log) : Entry → Prop
  | .path p => named p ∧ p ∉ log.nodes ∧ ¬ Refused p
  | .deps out mtime ids => (∃ n, log.nodes[out]? = some n ∧ named n) ∧
    (∀ id ∈ ids, ∃ n, log.nodes[id]? = some n ∧ named n) ∧
    4 * (3 + ids.length) ≤ maxRecordSize ∧ -2 ^ 63 ≤ mtime ∧ mtime < 2 ^ 63

def Written (named : Path → Prop) : Log → List Entry → Prop
  | _, [] => True
  | log, x :: xs => x.Written named log ∧ Written named (log.apply x) xs

section Written

variable {named : Path → Prop} {log : Log} {xs ys : List Entry}

lemma Entry.Written.mono {named' : Path → Prop} (h : ∀ p, named p → named' p)
    (hx : x.Written named log) : x.Written named' log := by
  cases x with
  | path p => exact ⟨h p hx.1, hx.2⟩
  | deps out mtime ids =>
    obtain ⟨⟨n, hn, hnamed⟩, hids, hrest⟩ := hx
    refine ⟨⟨n, hn, h n hnamed⟩, fun id hid => ?_, hrest⟩
    obtain ⟨m, hm, hnamed⟩ := hids id hid
    exact ⟨m, hm, h m hnamed⟩

lemma Written.mono {named' : Path → Prop} (h : ∀ p, named p → named' p)
    (hxs : Written named log xs) : Written named' log xs := by
  induction xs generalizing log with
  | nil => trivial
  | cons x xs ih => exact ⟨hxs.1.mono h, ih hxs.2⟩

lemma written_append : Written named log (xs ++ ys) ↔
    Written named log xs ∧ Written named (log.replay xs) ys := by
  induction xs generalizing log with
  | nil => exact (true_and _).symm ▸ Iff.rfl
  | cons x xs ih =>
    have htail : Written named (log.apply x) (xs ++ ys) ↔ _ := ih
    exact ⟨fun h => ⟨⟨h.1, (htail.mp h.2).1⟩, (htail.mp h.2).2⟩,
      fun h => ⟨h.1.1, htail.mpr ⟨h.1.2, h.2⟩⟩⟩

lemma Log.replay_append (log : Log) (xs ys : List Entry) :
    log.replay (xs ++ ys) = (log.replay xs).replay ys := foldl_append

lemma Entry.Written.fresh (h : x.Written named log) : ∀ p, x = .path p → p ∉ log.nodes := by
  rintro p rfl
  exact h.2.1

lemma Written.numbered (h : Written named log xs) (hnum : log.Numbered) :
    (log.replay xs).Numbered := by
  induction xs generalizing log with
  | nil => exact hnum
  | cons x xs ih => exact ih h.2 (hnum.apply h.1.fresh)

/-- The paths that are recorded are new, each is recorded once, and all of them were named. -/
lemma Written.paths (h : Written named log xs) (hnum : log.Numbered) :
    (log.nodes ++ xs.filterMap Entry.path?).Nodup ∧
      ∀ p ∈ xs.filterMap Entry.path?, named p := by
  refine ⟨?_, ?_⟩
  · rw [← Log.replay_nodes]
    exact (h.numbered hnum).nodup
  · induction xs generalizing log with
    | nil => simp
    | cons x xs ih =>
      intro p hp
      rw [filterMap_path?_cons, mem_append] at hp
      rcases hp with hp | hp
      · cases x with
        | path q =>
          obtain rfl : p = q := by simpa [Entry.path?] using hp
          exact h.1.1
        | deps out mtime ids => simp [Entry.path?] at hp
      · exact ih h.2 (hnum.apply h.1.fresh) p hp

/-- Records whose paths are read back are read back, with ids and times as they are stored. -/
lemma Written.spells_stored (h : Written named log xs)
    (hpaths : ∀ p, .path p ∈ xs → storedPath p = p) :
    Spells log.nodes (entriesBytes log.nodes.length xs) (xs.map Entry.stored) := by
  induction xs generalizing log with
  | nil => exact .nil _
  | cons x xs ih =>
    have htail := ih h.2 fun p hp => hpaths p (mem_cons_of_mem _ hp)
    rw [Log.apply_nodes, length_append] at htail
    rw [map_cons]
    cases x with
    | path p =>
      have hp := hpaths p mem_cons_self
      refine .cons (fun rest => ?_) (by simpa [Entry.stored, hp] using htail)
      rw [parseHead_path log.nodes rest h.1.2.2, hp, if_neg h.1.2.1, Entry.stored, hp]
    | deps out mtime ids =>
      exact .cons (fun rest => parseHead_deps log.nodes _ out mtime rest h.1.2.2.1) htail

/-- Records that are read back as they were written spell themselves. -/
lemma Written.spells (h : Written named log xs) (hstored : ∀ x ∈ xs, x.stored = x) :
    Spells log.nodes (entriesBytes log.nodes.length xs) xs := by
  have hspells := h.spells_stored fun p hp => by simpa [Entry.stored] using hstored _ hp
  rwa [map_congr_left hstored, map_id'] at hspells

end Written

/-! ### The writer -/

namespace Writer

def content (s : Writer) : List UInt8 :=
  if s.isOpen = false ∧ s.file = [] then fileSignature ++ intTo4Bytes currentVersion else s.file

def close (s : Writer) : Writer :=
  { finalState (openForWriteIfNeeded s) with isOpen := false }

/-- The file gets the bytes of the records that the log gets. -/
def Appends (named : Path → Prop) (s t : Writer) : Prop :=
  s.log.Numbered → ∃ xs, Written named s.log xs ∧ t.log = s.log.replay xs ∧
    t.content = s.content ++ entriesBytes s.log.nodes.length xs

instance (named : Path → Prop) : Std.Refl (Appends named) :=
  ⟨fun s _ => ⟨[], trivial, rfl, by simp [entriesBytes]⟩⟩

instance (named : Path → Prop) : IsTrans Writer (Appends named) where
  trans s t u hst htu hnum := by
    obtain ⟨xs, hxs, hlog, hcontent⟩ := hst hnum
    obtain ⟨ys, hys, hlog', hcontent'⟩ := htu (hlog ▸ hxs.numbered hnum)
    rw [hlog] at hys hlog' hcontent'
    refine ⟨xs ++ ys, written_append.mpr ⟨hxs, hys⟩, by rw [hlog', Log.replay_append], ?_⟩
    rw [hcontent', hcontent, entriesBytes_append, Log.replay_nodes, length_append,
      append_assoc]

end Writer

lemma openForWriteIfNeeded_apply (s : Writer) :
    openForWriteIfNeeded s = .ok ⟨⟩ { s with file := s.content, isOpen := true } := by
  simp only [openForWriteIfNeeded, modify_apply, Writer.content]
  obtain ⟨log, file, isOpen⟩ := s
  cases isOpen with
  | true => simp
  | false => simp

lemma Writer.close_file (s : Writer) : s.close.file = s.content := by
  rw [Writer.close, openForWriteIfNeeded_apply]
  rfl

lemma Writer.content_of_isOpen {s : Writer} (h : s.isOpen = true) : s.content = s.file := by
  simp [Writer.content, h]

section Writing

variable {s : Writer} {named : Path → Prop}
variable {ps : List Path} {n : Path} {mtime : TimeStamp} {t : Writer}

lemma recordId_apply (h : ¬ Refused n) : recordId n s = .ok ⟨⟩
      { log := s.log.addNode n
        file := s.content ++ (Entry.path n).bytes s.log.nodes.length
        isOpen := true } := by
  obtain ⟨hne, hmax⟩ := not_or.mp h
  rw [recordId]
  simp only [if_neg hne, if_neg (show ¬ n.length + pathPadding n + 4 > maxRecordSize from hmax),
    bind_apply, openForWriteIfNeeded_apply, get_apply, write, modify_apply, Entry.bytes]
  simp

lemma recordId_refused (h : Refused n) : ∃ f, recordId n s = .error f s := by
  rw [recordId]
  by_cases hempty : n = []
  · simp only [if_pos hempty]
    exact ⟨_, rfl⟩
  · have hlong : n.length + pathPadding n + 4 > maxRecordSize := h.resolve_left hempty
    simp only [if_neg hempty, if_pos hlong]
    exact ⟨_, rfl⟩

lemma recordIdIfMissing_appends (s : Writer) (hn : named n) :
    Moves (Writer.Appends named) s (recordIdIfMissing n) := by
  refine .get_bind (.ite (fun hid => ?_) fun _ => .pure _)
  refine .bind ?_ fun _ _ _ => .pure _
  by_cases hrefused : Refused n
  · obtain ⟨f, hf⟩ := recordId_refused (s := s) hrefused
    rw [Moves, hf]
    exact Std.Refl.refl s
  · intro hnum
    have hnew : n ∉ s.log.nodes := fun hmem => by
      have := hnum.nonneg_iff.mpr hmem
      omega
    rw [recordId_apply hrefused]
    refine ⟨[.path n], ⟨⟨hn, hnew, hrefused⟩, trivial⟩, rfl, ?_⟩
    simp [finalState, Writer.content, entriesBytes]

lemma recordIdIfMissing_ids {b : Bool} (h : recordIdIfMissing n s = .ok b t) :
    0 ≤ t.log.ids n ∧ ∀ m, 0 ≤ s.log.ids m → 0 ≤ t.log.ids m := by
  obtain ⟨s₀, s₁, h₀, h⟩ := bind_ok.mp h
  obtain ⟨rfl, rfl⟩ := get_ok.mp h₀
  split at h
  next hid =>
    obtain ⟨_, t', h', h⟩ := bind_ok.mp h
    obtain ⟨-, rfl⟩ := pure_ok.mp h
    by_cases hrefused : Refused n
    · obtain ⟨f, hf⟩ := recordId_refused (s := s) hrefused
      rw [hf] at h'
      cases h'
    · rw [recordId_apply hrefused] at h'
      cases h'
      constructor
      · simp [Log.addNode]
      · intro m hm
        by_cases hmn : m = n
        · simp [Log.addNode, hmn]
        · simpa [Log.addNode, Function.update_of_ne hmn] using hm
  next hid =>
    obtain ⟨-, rfl⟩ := pure_ok.mp h
    exact ⟨by omega, fun m hm => hm⟩

lemma recordMissingIds_appends (s : Writer) (hps : ∀ p ∈ ps, named p) :
    Moves (Writer.Appends named) s (recordMissingIds (ps.map some)) := by
  induction ps generalizing s with
  | nil => exact .pure _
  | cons p ps ih =>
    obtain ⟨hp, hps⟩ := forall_mem_cons.mp hps
    exact .bind (recordIdIfMissing_appends s hp) fun _ t _ =>
      Moves.bind (ih t hps) fun _ _ _ => .pure _

lemma recordMissingIds_ids {b : Bool} (h : recordMissingIds (ps.map some) s = .ok b t) :
    (∀ p ∈ ps, 0 ≤ t.log.ids p) ∧ ∀ m, 0 ≤ s.log.ids m → 0 ≤ t.log.ids m := by
  induction ps generalizing s b with
  | nil =>
    cases h
    exact ⟨by simp, fun m hm => hm⟩
  | cons p ps ih =>
    obtain ⟨b₁, s₁, h₁, h⟩ := bind_ok.mp h
    obtain ⟨b₂, s₂, h₂, h⟩ := bind_ok.mp h
    obtain ⟨-, rfl⟩ := pure_ok.mp h
    obtain ⟨hp, hkeep₁⟩ := recordIdIfMissing_ids h₁
    obtain ⟨hps, hkeep₂⟩ := ih h₂
    refine ⟨forall_mem_cons.mpr ⟨hkeep₂ p hp, hps⟩, fun m hm => hkeep₂ m (hkeep₁ m hm)⟩

lemma Log.Numbered.getElem?_ids {log : Log} (h : log.Numbered) (hn : 0 ≤ log.ids n) :
    log.nodes[(log.ids n).toNat]? = some n := by
  obtain ⟨i, hi⟩ := mem_iff_getElem?.mp (h.nonneg_iff.mp hn)
  rw [h.ids i n hi]
  exact hi

lemma nodesWithIds_ids {log : Log} (h : log.Numbered) (hps : ∀ p ∈ ps, 0 ≤ log.ids p) :
    (nodesWithIds log.nodes (ps.map fun p => (log.ids p).toNat)).1 = ps.map some := by
  induction ps with
  | nil => rfl
  | cons p ps ih =>
    obtain ⟨hp, hps⟩ := forall_mem_cons.mp hps
    rw [map_cons, nodesWithIds, h.getElem?_ids hp, map_cons, ih hps]

lemma writeDeps_log (s : Writer) (n : Path) (mtime : TimeStamp) {nodes : List (Option Path)}
    (h : 4 * (3 + nodes.length) ≤ maxRecordSize) : (finalState (writeDeps n mtime nodes s)).log =
      s.log.updateDeps (s.log.ids n).toNat ⟨mtime, nodes⟩ := by
  rw [writeDeps]
  simp only
  rw [if_neg (by omega)]
  simp only [bind_apply, openForWriteIfNeeded_apply, get_apply, write, modify_apply, finalState]

lemma writeDeps_writes (hmtime : -2 ^ 63 ≤ mtime ∧ mtime < 2 ^ 63) (hn : named n)
    (hps : ∀ p ∈ ps, named p) (hid : 0 ≤ s.log.ids n) (hids : ∀ p ∈ ps, 0 ≤ s.log.ids p)
    (hmax : 4 * (3 + ps.length) ≤ maxRecordSize) (hnum : s.log.Numbered)
    (ht : t = finalState (writeDeps n mtime (ps.map some) s))
    (hx : x = .deps (s.log.ids n).toNat mtime (ps.map fun p => (s.log.ids p).toNat)) :
    Written named s.log [x] ∧ t.log = s.log.replay [x] ∧
      t.content = s.content ++ entriesBytes s.log.nodes.length [x] := by
  have hlog := @writeDeps_log s n mtime (ps.map some) (by rwa [length_map])
  subst ht hx
  refine ⟨⟨⟨⟨n, hnum.getElem?_ids hid, hn⟩, fun id hmem => ?_, ?_, hmtime⟩, trivial⟩, ?_, ?_⟩
  · obtain ⟨p, hp, rfl⟩ := mem_map.mp hmem
    exact ⟨p, hnum.getElem?_ids (hids p hp), hps p hp⟩
  · rwa [length_map]
  · simp only [Log.replay, foldl_cons, foldl_nil, Log.apply, nodesWithIds_ids hnum hids]
    exact hlog
  · have hcast : ∀ m, 0 ≤ s.log.ids m → ((s.log.ids m).toNat : Int) = s.log.ids m := by
      intro m hm
      omega
    have hflat : ((ps.map some).filterMap id).flatMap (fun m => intTo4Bytes (s.log.ids m)) =
        (ps.map fun p => (s.log.ids p).toNat).flatMap fun id : Nat => intTo4Bytes id := by
      rw [filterMap_map, flatMap_map]
      simp only [Function.comp_def, id_eq, filterMap_some]
      refine flatMap_congr fun p hp => ?_
      rw [hcast p (hids p hp)]
    rw [writeDeps]
    simp only [length_map]
    rw [if_neg (by omega)]
    simp only [bind_apply, openForWriteIfNeeded_apply, get_apply, write, modify_apply, finalState]
    rw [Writer.content_of_isOpen rfl]
    simp only [entriesBytes, Entry.bytes, hcast n hid, ← hflat, length_map, append_nil]
    simp

lemma writeDeps_appends (hmtime : -2 ^ 63 ≤ mtime ∧ mtime < 2 ^ 63) (hn : named n)
    (hps : ∀ p ∈ ps, named p) (hid : 0 ≤ s.log.ids n) (hids : ∀ p ∈ ps, 0 ≤ s.log.ids p) :
    Moves (Writer.Appends named) s (writeDeps n mtime (ps.map some)) := by
  by_cases hmax : 4 * (3 + ps.length) ≤ maxRecordSize
  · intro hnum
    exact ⟨_, writeDeps_writes hmtime hn hps hid hids hmax hnum rfl rfl⟩
  · rw [writeDeps]
    refine .ite (fun _ => .throw _) fun hsize => ?_
    rw [length_map] at hsize
    omega

lemma recordDeps_appends (s : Writer) (hmtime : -2 ^ 63 ≤ mtime ∧ mtime < 2 ^ 63) (hn : named n)
    (hps : ∀ p ∈ ps, named p) :
    Moves (Writer.Appends named) s (recordDeps n mtime (ps.map some)) := by
  refine .bind (recordIdIfMissing_appends s hn) fun change s₁ h₁ => ?_
  refine .bind (recordMissingIds_appends s₁ hps) fun changes s₂ h₂ => .get_bind ?_
  obtain ⟨hid, -⟩ := recordIdIfMissing_ids h₁
  obtain ⟨hids, hkeep⟩ := recordMissingIds_ids h₂
  obtain ⟨before, hbefore⟩ := s₂.log.getDeps_ok n
  rw [hbefore]
  refine .bind (.pure before) fun before' s₃ h₃ => ?_
  obtain ⟨-, rfl⟩ := pure_ok.mp h₃
  exact .ite (fun _ => .pure _) fun _ =>
    writeDeps_appends hmtime hn hps (hkeep n hid) hids

end Writing

/-- A call of `RecordDeps`. -/
structure Call where
  node : Path
  mtime : Int64
  nodes : List Path
  deriving DecidableEq, Repr

def Call.paths (c : Call) : List Path := c.node :: c.nodes

def Writer.record (s : Writer) (c : Call) : Writer :=
  finalState (recordDeps c.node c.mtime.toInt (c.nodes.map some) s)

def Writer.recordAll (s : Writer) (calls : List Call) : Writer := calls.foldl Writer.record s

lemma Writer.Appends.mono {named named' : Path → Prop} (h : ∀ p, named p → named' p)
    {s t : Writer} (hst : Writer.Appends named s t) : Writer.Appends named' s t := by
  intro hnum
  obtain ⟨xs, hxs, hrest⟩ := hst hnum
  exact ⟨xs, hxs.mono h, hrest⟩

lemma Writer.record_appends (s : Writer) (c : Call) :
    Writer.Appends (· ∈ c.paths) s (s.record c) :=
  recordDeps_appends s ⟨c.mtime.le_toInt, c.mtime.toInt_lt⟩ mem_cons_self
    fun _ hp => mem_cons_of_mem _ hp

lemma Writer.recordAll_appends (s : Writer) (calls : List Call) :
    Writer.Appends (· ∈ calls.flatMap Call.paths) s (s.recordAll calls) := by
  induction calls generalizing s with
  | nil => exact Std.Refl.refl s
  | cons c calls ih =>
    rw [flatMap_cons]
    have hfirst : Writer.Appends (· ∈ c.paths ++ calls.flatMap Call.paths) s (s.record c) :=
      (s.record_appends c).mono fun p hp => mem_append_left _ hp
    have hrest : Writer.Appends (· ∈ c.paths ++ calls.flatMap Call.paths) (s.record c)
        ((s.record c).recordAll calls) := (ih _).mono fun p hp => mem_append_right _ hp
    exact IsTrans.trans _ _ _ hfirst hrest

end Reninja.DepsFile
