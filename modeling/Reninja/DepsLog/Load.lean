import Reninja.DepsLog.Basic

/-!
# Loading a deps log of arbitrary bytes

What a file says is a list of records, up to the one at which reading ends: `parse`. The loader
does to the log what the records say. From this follows for which files loading is safe.
-/

namespace Reninja.DepsFile

open Program Loader List

variable {s : Loader} {log : Log}

/-! ### The records of a file -/

/-- What a record says. -/
inductive Entry where
  | path (p : Path)
  | deps (out : Nat) (mtime : TimeStamp) (ids : List Nat)
  deriving DecidableEq, Repr

/-- What is at the beginning of some bytes: a record, something that ends the reading, or
something that the loader panics at. -/
inductive Head where
  | stops
  | panics
  | entry (x : Entry) (rest : List UInt8)
  deriving DecidableEq, Repr

def fieldAt (record : List UInt8) (i : Nat) : Nat := bytesToInt ((record.drop i).take 4)

/-- A record of dependencies. One that has no room for the output and the time is a panic. -/
def parseDeps (record rest : List UInt8) : Head :=
  if record.length % 4 ≠ 0 then
    .stops
  else if record.length / 4 < 3 then
    .panics
  else
    .entry (.deps (fieldAt record 0) (joinMtime (fieldAt record 4) (fieldAt record 8))
      ((range (record.length / 4 - 3)).map fun i => fieldAt record (12 + 4 * i))) rest

def trimNul (p : List UInt8) : List UInt8 := if p.getLast? = some 0 then p.dropLast else p

/-- A record of a path, after the paths `known`: up to three NULs fill it up, and the last four
bytes are the complement of its id. A path of nothing but one or two NULs is a panic. -/
def parsePath (known : List Path) (record rest : List UInt8) : Head :=
  let padded := record.take (record.length - 4)
  if record.length ≤ 4 then
    .stops
  else if padded = [0] ∨ padded = [0, 0] then
    .panics
  else
    let p := trimNul (trimNul (trimNul padded))
    if known.length % 2 ^ 32 ≠ 2 ^ 32 - 1 - fieldAt record (record.length - 4) ∨ p ∈ known then
      .stops
    else
      .entry (.path p) rest

def parseHead (known : List Path) (bytes : List UInt8) : Head :=
  if bytes.length < 4 then
    .stops
  else
    let size := fieldAt bytes 0 % 2 ^ 31
    let record := (bytes.drop 4).take size
    let rest := (bytes.drop 4).drop size
    if maxRecordSize < size ∨ record.length < size then
      .stops
    else if 2 ^ 31 ≤ fieldAt bytes 0 then
      parseDeps record rest
    else
      parsePath known record rest

def Entry.path? : Entry → Option Path
  | .path p => some p
  | _ => none

/-- The records from some bytes on, and whether the loader gets past them without a panic. -/
def parse : Nat → List Path → List UInt8 → List Entry × Bool
  | 0, _, _ => ([], true)
  | fuel + 1, known, bytes =>
    match parseHead known bytes with
    | .stops => ([], true)
    | .panics => ([], false)
    | .entry x rest =>
      let r := parse fuel (known ++ x.path?.toList) rest
      (x :: r.1, r.2)

def validHeader (file : List UInt8) : Bool :=
  16 ≤ file.length && file.take 12 = fileSignature && fieldAt file 12 = currentVersion

/-- The records of a file; there are none in a file with another header. -/
def fileEntries (file : List UInt8) : List Entry × Bool :=
  if validHeader file then parse ((file.drop 16).length + 1) [] (file.drop 16) else ([], true)

def Log.apply (log : Log) : Entry → Log
  | .path p => log.addNode p
  | .deps out mtime ids => log.updateDeps out ⟨mtime, (nodesWithIds log.nodes ids).1⟩

/-- The ids of the nodes are their places in the log. -/
structure Log.Numbered (log : Log) : Prop where
  nodup : log.nodes.Nodup
  ids : ∀ (i : Nat) n, log.nodes[i]? = some n → log.ids n = i
  others : ∀ n, n ∉ log.nodes → log.ids n = -1

lemma Log.Numbered.nonneg_iff (h : log.Numbered) {n : Path} : 0 ≤ log.ids n ↔ n ∈ log.nodes := by
  constructor
  · intro hn
    by_contra hmem
    rw [h.others n hmem] at hn
    omega
  · intro hmem
    obtain ⟨i, hi⟩ := mem_iff_getElem?.mp hmem
    rw [h.ids i n hi]
    omega

lemma Log.Numbered.empty : ({} : Log).Numbered := ⟨nodup_nil, by simp, fun _ _ => rfl⟩

lemma Log.Numbered.addNode (h : log.Numbered) {n : Path} (hn : n ∉ log.nodes) :
    (log.addNode n).Numbered where
  nodup := List.Nodup.append h.nodup (nodup_singleton n) (by simpa using hn)
  ids i m hm := by
    rw [Log.addNode, getElem?_append] at hm
    simp only [Log.addNode]
    split at hm
    · have hne : m ≠ n := fun heq => hn (heq ▸ mem_of_getElem? hm)
      rw [Function.update_of_ne hne, h.ids i m hm]
    · obtain ⟨hi, rfl⟩ : i - log.nodes.length = 0 ∧ n = m := by
        simpa [getElem?_singleton] using hm
      rw [Function.update_self]
      omega
  others m hm := by
    simp only [Log.addNode, mem_append, mem_singleton, not_or] at hm
    simp only [Log.addNode, Function.update_of_ne hm.2, h.others m hm.1]

/-! ### The loader reads records -/

section Buffer

variable {buf : Nat → UInt8} {got : List UInt8} {s e : Nat}

lemma slice_read (h : e ≤ got.length) :
    slice (fun i => got.getD i (buf i)) s e = (got.drop s).take (e - s) := by
  refine ext_getElem ?_ fun i h₁ h₂ => ?_
  · simp [slice]
    omega
  · simp only [slice, length_map, length_range] at h₁
    have hi : s + i < got.length := by omega
    simp [slice, getElem?_eq_getElem hi]

end Buffer

def Loader.read (s : Loader) (n : Nat) : Loader :=
  { s with buf := fun i => (s.rest.take n).getD i (s.buf i), rest := s.rest.drop n }

lemma readFull_apply (s : Loader) (n : Nat) :
    readFull n s = .ok (decide (n ≤ s.rest.length)) (s.read n) := by
  have hn : ((s.rest.take n).length = n) = (n ≤ s.rest.length) := by simp
  simp only [readFull, bind_apply, get_apply, modify_apply, pure_apply, hn]
  rfl

section Record

variable {s : Loader} {size : Nat} {rest : List UInt8}

/-- The loader has just read a record of a size. -/
structure HasRead (s : Loader) (record : List UInt8) : Prop where
  buf : ∃ b : Nat → UInt8, s.buf = fun i => record.getD i (b i)

variable {record : List UInt8} (hread : HasRead s record)

include hread

lemma HasRead.slice {i j : Nat} (h : j ≤ record.length) :
    slice s.buf i j = (record.drop i).take (j - i) := by
  obtain ⟨b, hb⟩ := hread.buf
  rw [hb, slice_read h]

lemma HasRead.field {i : Nat} (h : i + 4 ≤ record.length) :
    bytesToInt (DepsFile.slice s.buf i (i + 4)) = fieldAt record i := by
  rw [hread.slice h, Nat.add_sub_cancel_left, fieldAt]

lemma HasRead.ids :
    recordIds s.buf record.length =
      (range (record.length / 4 - 3)).map fun i => fieldAt record (12 + 4 * i) := by
  refine map_congr_left fun i hi => ?_
  rw [mem_range] at hi
  exact hread.field (by omega)

end Record

/-- A round of the loop does to the log what the head of the bytes says. -/
def Follows (log : Log) : Head → EStateM.Result Failure Loader Bool → Prop
  | .stops, r => ∃ t, r = .ok false t ∧ t.log = log
  | .panics, r => ∃ msg t, r = .error (.panic msg) t
  | .entry x rest, r => ∃ t, r = .ok true t ∧ t.log = log.apply x ∧ t.rest = rest

lemma stopReading_follows (s : Loader) : Follows s.log .stops (stopReading s) :=
  ⟨_, rfl, rfl⟩

lemma loadDeps_follows {record : List UInt8} (hread : HasRead s record) :
    Follows s.log (parseDeps record s.rest) (loadDeps record.length s) := by
  rw [loadDeps, parseDeps]
  split_ifs with h₁ h₂
  · exact stopReading_follows s
  · exact ⟨_, _, rfl⟩
  · refine ⟨_, rfl, ?_, rfl⟩
    simp only [Log.apply]
    rw [hread.ids, hread.field (by omega), hread.field (i := 4) (by omega),
      hread.field (i := 8) (by omega)]

section Trim

variable {p : List UInt8}

lemma trimNul_append_nul (q : List UInt8) : trimNul (q ++ [0]) = q := by simp [trimNul]

lemma trimNul_cases (p : List UInt8) : p = trimNul p ++ [0] ∨
    (p = trimNul p ∧ p.getLast? ≠ some 0) := by
  by_cases h : p.getLast? = some 0
  · obtain ⟨q, rfl⟩ := getLast?_eq_some_iff.mp h
    rw [trimNul_append_nul]
    exact .inl rfl
  · exact .inr ⟨by rw [trimNul, if_neg h], h⟩

lemma trimNul_eq_nil (hp : p ≠ []) : trimNul p = [] ↔ p = [0] := by
  constructor
  · intro h
    rcases trimNul_cases p with heq | ⟨heq, -⟩
    · rwa [h] at heq
    · exact absurd (heq.trans h) hp
  · rintro rfl
    exact trimNul_append_nul []

lemma trimNul_eq_singleton : trimNul p = [0] ↔ p = [0, 0] := by
  constructor
  · intro h
    rcases trimNul_cases p with heq | ⟨heq, hlast⟩
    · rwa [h] at heq
    · rw [heq, h] at hlast
      exact absurd rfl hlast
  · rintro rfl
    exact trimNul_append_nul [0]

lemma trimNul_length_le (p : List UInt8) : (trimNul p).length ≤ p.length := by
  rw [trimNul]
  split_ifs
  · simp
  · exact le_refl _

end Trim

section Path

variable {s : Loader} {record : List UInt8} (hread : HasRead s record)

include hread

lemma dropNul_apply {k : Nat} (hk : 0 < k) (hle : k ≤ record.length) :
    dropNul k s = .ok (trimNul (record.take k)).length s ∧
      record.take (trimNul (record.take k)).length = trimNul (record.take k) := by
  obtain ⟨k, rfl⟩ := Nat.exists_eq_succ_of_ne_zero hk.ne'
  obtain ⟨b, hb⟩ := hread.buf
  have hlt : k < record.length := by omega
  have hbuf : s.buf k = record[k] := by simp [hb, hlt]
  have hlast : (record.take (k + 1)).getLast? = some record[k] := by
    rw [getLast?_eq_getElem?, getElem?_take]
    simp [hle, hlt]
  have hinit : (record.take (k + 1)).dropLast = record.take k := by
    rw [dropLast_eq_take, take_take]
    congr 1
    simp
    omega
  simp only [dropNul, bind_apply, get_apply, pure_apply, hbuf, trimNul, hlast, hinit]
  by_cases hc : record[k] = 0
  · simp [hc, hlt.le]
  · simp [hc, hle]

lemma loadPath_follows (hnum : s.log.Numbered) :
    Follows s.log (parsePath s.log.nodes record s.rest) (loadPath record.length s) := by
  rw [loadPath, parsePath]
  by_cases hshort : record.length ≤ 4
  · simpa only [if_pos hshort] using stopReading_follows s
  · have hlen : 0 < record.length - 4 := by omega
    simp only [if_neg hshort]
    set padded := record.take (record.length - 4) with hpadded
    have hne : padded ≠ [] := by
      intro h
      simpa [hpadded, hlen.ne'] using congrArg length h
    obtain ⟨h₁, htake₁⟩ := dropNul_apply hread hlen (by omega)
    rw [← hpadded] at h₁ htake₁
    rw [bind_apply, h₁]
    have hle₁ := trimNul_length_le padded
    have hle : padded.length ≤ record.length := by simp [hpadded]
    by_cases hzero₁ : trimNul padded = []
    · rw [if_pos (.inl ((trimNul_eq_nil hne).mp hzero₁)), hzero₁]
      exact ⟨_, _, rfl⟩
    · obtain ⟨h₂, htake₂⟩ := dropNul_apply hread (length_pos_of_ne_nil hzero₁) (by omega)
      rw [htake₁] at h₂ htake₂
      simp only
      rw [bind_apply, h₂]
      by_cases hzero₂ : trimNul (trimNul padded) = []
      · rw [if_pos (.inr (trimNul_eq_singleton.mp ((trimNul_eq_nil hzero₁).mp hzero₂))), hzero₂]
        exact ⟨_, _, rfl⟩
      · have hle₂ := trimNul_length_le (trimNul padded)
        obtain ⟨h₃, htake₃⟩ := dropNul_apply hread (length_pos_of_ne_nil hzero₂) (by omega)
        rw [htake₂] at h₃ htake₃
        have hpanic : ¬ (padded = [0] ∨ padded = [0, 0]) := by
          rintro (h | h)
          · exact hzero₁ ((trimNul_eq_nil hne).mpr h)
          · exact hzero₂ ((trimNul_eq_nil hzero₁).mpr (trimNul_eq_singleton.mpr h))
        have hle₃ := trimNul_length_le (trimNul (trimNul padded))
        have hfield := hread.field (i := record.length - 4) (by omega)
        rw [Nat.sub_add_cancel (by omega)] at hfield
        simp only [if_neg hpanic]
        rw [bind_apply, h₃]
        simp only [bind_apply, get_apply, hfield, hnum.nonneg_iff,
          hread.slice (i := 0) (show (trimNul (trimNul (trimNul padded))).length ≤ _ by omega),
          drop_zero, Nat.sub_zero, htake₃]
        split_ifs
        · exact stopReading_follows s
        · exact ⟨_, rfl, rfl, rfl⟩

end Path

lemma HasRead.read (s : Loader) (n : Nat) : HasRead (s.read n) (s.rest.take n) := ⟨_, rfl⟩

lemma HasRead.advance {record : List UInt8} (h : HasRead s record) (n : Nat) :
    HasRead { s with offset := n } record := ⟨h.buf⟩

lemma loadSized_follows (hnum : s.log.Numbered) (isDeps : Bool) (size : Nat) : Follows s.log
      (if maxRecordSize < size ∨ (s.rest.take size).length < size then .stops
        else if isDeps then parseDeps (s.rest.take size) (s.rest.drop size)
        else parsePath s.log.nodes (s.rest.take size) (s.rest.drop size))
      (loadSized isDeps size s) := by
  rw [loadSized]
  by_cases hmax : maxRecordSize < size
  · rw [if_pos (.inl hmax), if_pos hmax]
    exact stopReading_follows s
  rw [if_neg (show ¬ size > maxRecordSize from hmax), bind_apply, readFull_apply]
  by_cases hlen : size ≤ s.rest.length
  · have hsize : (s.rest.take size).length = size := length_take_of_le hlen
    have hread := (HasRead.read s size).advance (s.offset + (size + 4))
    rw [if_neg (by omega)]
    simp only [hlen, decide_true, if_true, bind_apply, modify_apply]
    cases isDeps with
    | true =>
      have h := loadDeps_follows hread
      rwa [hsize] at h
    | false =>
      have h := loadPath_follows hread hnum
      rwa [hsize] at h
  · rw [if_pos (.inr (by simpa using hlen))]
    simp only [hlen, decide_false]
    exact stopReading_follows (s.read size)

lemma loadRecord_follows (hnum : s.log.Numbered) :
    Follows s.log (parseHead s.log.nodes s.rest) (loadRecord s) := by
  rw [loadRecord, parseHead, bind_apply, readFull_apply]
  by_cases hlen : s.rest.length < 4
  · have hshort : ¬ 4 ≤ s.rest.length := by omega
    simp only [hlen, hshort, decide_false, if_true]
    exact stopReading_follows (s.read 4)
  · have hlong : 4 ≤ s.rest.length := by omega
    simp only [hlen, hlong, decide_true, if_true, if_false, bind_apply, get_apply]
    have hfield : bytesToInt (slice (s.read 4).buf 0 4) = fieldAt s.rest 0 := by
      rw [(HasRead.read s 4).slice (i := 0) (by simp [hlong])]
      simp [fieldAt, take_take]
    rw [hfield]
    have h := loadSized_follows (s := s.read 4) hnum (2 ^ 31 ≤ fieldAt s.rest 0)
      (fieldAt s.rest 0 % 2 ^ 31)
    simp only [decide_eq_true_eq] at h
    exact h

/-- An entry is shorter than the bytes it is read from; a path is new, and the number of
dependencies is bounded. -/
structure Entry.Fits (known : List Path) (bytes rest : List UInt8) (x : Entry) : Prop where
  shorter : rest.length < bytes.length
  fresh : ∀ p, x = .path p → p ∉ known
  bounded : ∀ out mtime ids, x = .deps out mtime ids → 4 * (3 + ids.length) ≤ maxRecordSize

lemma parseHead_fits {known : List Path} {bytes rest : List UInt8} {x : Entry}
    (h : parseHead known bytes = .entry x rest) : x.Fits known bytes rest := by
  rw [parseHead] at h
  split at h
  · cases h
  · rename_i hlen
    simp only at h
    generalize fieldAt bytes 0 % 2 ^ 31 = size at h
    split at h
    · cases h
    · rename_i hsize
      have hshorter : ((bytes.drop 4).drop size).length < bytes.length := by simp; omega
      split at h
      · rw [parseDeps] at h
        split_ifs at h with h₁ h₂
        obtain ⟨rfl, rfl⟩ := Head.entry.inj h
        refine ⟨hshorter, fun p hp => (nomatch hp), fun out mtime ids hx => ?_⟩
        obtain ⟨-, -, rfl⟩ := Entry.deps.inj hx
        have : (take size (drop 4 bytes)).length ≤ size := by simp
        simp only [length_map, length_range]
        omega
      · rw [parsePath] at h
        simp only at h
        split_ifs at h with h₁ h₂ h₃
        obtain ⟨rfl, rfl⟩ := Head.entry.inj h
        refine ⟨hshorter, fun p hp => ?_, fun _ _ _ hx => nomatch hx⟩
        obtain rfl := Entry.path.inj hp
        exact fun hmem => h₃ (.inr hmem)

lemma Log.apply_nodes (log : Log) (x : Entry) :
    (log.apply x).nodes = log.nodes ++ x.path?.toList := by
  cases x with
  | path p => rfl
  | deps out mtime ids => simp [Log.apply, Log.updateDeps, Entry.path?]

lemma Log.Numbered.apply (h : log.Numbered) {x : Entry} (hx : ∀ p, x = .path p → p ∉ log.nodes) :
    (log.apply x).Numbered := by
  cases x with
  | path p => exact h.addNode (hx p rfl)
  | deps out mtime ids => exact ⟨h.nodup, h.ids, h.others⟩

/-- The effect of some records, one after the other. -/
def Log.replay (log : Log) (entries : List Entry) : Log := entries.foldl Log.apply log

def Reads {α : Type} (log : Log) : List Entry × Bool → EStateM.Result Failure Loader α → Prop
  | (entries, true), r => ∃ a t, r = .ok a t ∧ t.log = log.replay entries
  | (_, false), r => ∃ msg t, r = .error (.panic msg) t

lemma loadLoop_reads (fuel : Nat) (hnum : s.log.Numbered) (hfuel : s.rest.length < fuel) :
    Reads s.log (parse fuel s.log.nodes s.rest) (loadLoop fuel s) := by
  induction fuel generalizing s with
  | zero => omega
  | succ fuel ih =>
    have hstep := loadRecord_follows hnum
    rw [parse, loadLoop, bind_apply]
    cases hhead : parseHead s.log.nodes s.rest with
    | stops =>
      rw [hhead] at hstep
      obtain ⟨t, hok, hlog⟩ := hstep
      rw [hok]
      exact ⟨(), t, rfl, hlog⟩
    | panics =>
      rw [hhead] at hstep
      obtain ⟨msg, t, herr⟩ := hstep
      rw [herr]
      exact ⟨msg, t, rfl⟩
    | entry x rest =>
      rw [hhead] at hstep
      obtain ⟨t, hok, hlog, rfl⟩ := hstep
      have hfits := parseHead_fits hhead
      have hnum' : t.log.Numbered := hlog ▸ hnum.apply hfits.fresh
      have hrest := ih hnum' (by have := hfits.shorter; omega)
      rw [hlog, Log.apply_nodes] at hrest
      rw [hok]
      simp only [if_true]
      generalize parse fuel (s.log.nodes ++ x.path?.toList) t.rest = r at hrest ⊢
      obtain ⟨entries, ok⟩ := r
      cases ok with
      | true => exact hrest
      | false => exact hrest

lemma loadHeader_ok (file : List UInt8) :
    ∃ err t, loadHeader (start file) = .ok err t ∧
      (err = none ↔ validHeader file = true) ∧ t.log = {} ∧ t.rest = file.drop 16 := by
  have hread₁ := HasRead.read (start file) 12
  have hread₂ := HasRead.read ((start file).read 12) 4
  have hslice₁ : 12 ≤ file.length → slice ((start file).read 12).buf 0 12 = file.take 12 :=
    fun h => by
      rw [hread₁.slice (by simpa [start] using h)]
      simp [start, take_take]
  have hslice₂ : 16 ≤ file.length →
      bytesToInt (slice (((start file).read 12).read 4).buf 0 4) = fieldAt file 12 :=
    fun h => by
      have hlen : 4 ≤ file.length - 12 := by omega
      rw [hread₂.slice (by simpa [Loader.start, Loader.read] using hlen)]
      simp [Loader.start, Loader.read, fieldAt, take_take]
  have hlog : (((Loader.start file).read 12).read 4).rest = file.drop 16 := by
    simp [Loader.start, Loader.read, drop_drop]
  have hsig : fileSignature.length = 12 := rfl
  simp only [loadHeader, bind_apply, readFull_apply, get_apply, hsig]
  have hlen : (start file).rest.length = file.length ∧
      ((Loader.start file).read 12).rest.length = file.length - 12 := by
    simp [Loader.start, Loader.read]
  have hiff : ((decide (12 ≤ (start file).rest.length) &&
        decide (slice ((start file).read 12).buf 0 12 = fileSignature)) = true ∧
      (decide (4 ≤ ((start file).read 12).rest.length) &&
        decide (bytesToInt (slice (((start file).read 12).read 4).buf 0 4) =
          currentVersion)) = true) ↔ validHeader file = true := by
    simp only [validHeader, Bool.and_eq_true, decide_eq_true_eq, hlen.1, hlen.2]
    constructor
    · rintro ⟨⟨h₁, h₂⟩, h₃, h₄⟩
      rw [hslice₁ h₁] at h₂
      rw [hslice₂ (by omega)] at h₄
      exact ⟨⟨by omega, h₂⟩, h₄⟩
    · rintro ⟨⟨h₁, h₂⟩, h₃⟩
      rw [hslice₁ (by omega), hslice₂ h₁]
      exact ⟨⟨by omega, h₂⟩, by omega, h₃⟩
  by_cases hvalid : validHeader file = true
  · rw [if_neg (not_not.mpr (hiff.mpr hvalid))]
    exact ⟨none, _, rfl, by simpa using hvalid, rfl, hlog⟩
  · rw [if_pos (fun h => hvalid (hiff.mp h))]
    exact ⟨_, _, rfl, by simpa using hvalid, rfl, hlog⟩

lemma load_reads (file : List UInt8) :
    Reads {} (fileEntries file) (load (start file)) := by
  obtain ⟨err, t, hok, hvalid, hlog, hrest⟩ := loadHeader_ok file
  rw [load, fileEntries, bind_apply, hok]
  cases err with
  | some err =>
    have hinvalid : ¬ validHeader file = true := fun h => by simpa using hvalid.mpr h
    rw [if_neg hinvalid]
    exact ⟨_, t, rfl, hlog⟩
  | none =>
    have hnum : t.log.Numbered := hlog ▸ .empty
    have hloop := loadLoop_reads (t.rest.length + 1) hnum (Nat.lt_succ_self _)
    rw [if_pos (hvalid.mp rfl)]
    simp only [bind_apply, get_apply, modify_apply, pure_apply]
    rw [hlog, hrest] at hloop
    rw [hrest]
    generalize parse ((file.drop 16).length + 1) [] (file.drop 16) = r at hloop ⊢
    obtain ⟨entries, ok⟩ := r
    cases ok with
    | true =>
      obtain ⟨_, t', hrun, hlog'⟩ := hloop
      rw [hrun]
      refine ⟨_, _, rfl, ?_⟩
      rw [← hlog', finishLoad]
      split_ifs <;> rfl
    | false =>
      obtain ⟨msg, t', hrun⟩ := hloop
      rw [hrun]
      exact ⟨msg, t', rfl⟩

end Reninja.DepsFile
