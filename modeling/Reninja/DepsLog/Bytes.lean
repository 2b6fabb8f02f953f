import Reninja.DepsLog.Load

/-!
# The bytes of a record

The bytes that `RecordId` and `RecordDeps` write for a record, and what the loader reads from them.
Ids have 32 bits in the file and times 64, and a path comes back without the NULs at its end that
look like padding.
-/

namespace Reninja.DepsFile

open List

variable {known : List Path}

@[simp]
lemma intTo4Bytes_length (i : Int) : (intTo4Bytes i).length = 4 := rfl

lemma bytesToInt_intTo4Bytes (i : Int) : bytesToInt (intTo4Bytes i) = (i % 2 ^ 32).toNat := by
  have hlt : (i % 2 ^ 32).toNat < 2 ^ 32 := by omega
  simp only [intTo4Bytes]
  generalize (i % 2 ^ 32).toNat = n at hlt
  simp only [bytesToInt, map_cons, map_nil, foldr_cons, foldr_nil,
    UInt8.toNat_ofNat']
  omega

lemma fieldAt_append {a : List UInt8} {k : Nat} (h : a.length = k) (i : Int) (b : List UInt8) :
    fieldAt (a ++ (intTo4Bytes i ++ b)) k = (i % 2 ^ 32).toNat := by
  rw [fieldAt, drop_append_of_le_length (by omega), drop_of_length_le (by omega),
    nil_append, take_append_of_le_length (by simp), take_of_length_le (by simp),
    bytesToInt_intTo4Bytes]

lemma joinMtime_halves (t : Int) :
    joinMtime (t % 2 ^ 32).toNat (t / 2 ^ 32 % 2 ^ 32).toNat = Int.bmod t (2 ^ 64) := by
  have hlow : ((t % 2 ^ 32).toNat : Int) = t % 2 ^ 32 := by omega
  have hhigh : ((t / 2 ^ 32 % 2 ^ 32).toNat : Int) = t / 2 ^ 32 % 2 ^ 32 := by omega
  have hsum : t % 2 ^ 32 + t / 2 ^ 32 % 2 ^ 32 * 2 ^ 32 = t % 2 ^ 64 := by omega
  have hcast : (2 ^ 64 : Int) = ((2 ^ 64 : Nat) : Int) := by norm_cast
  unfold joinMtime
  rw [hlow, hhigh, hsum, hcast, Int.emod_bmod]

/-! ### Records -/

def Entry.bytes (known : Nat) : Entry → List UInt8
  | .path p =>
    intTo4Bytes (p.length + pathPadding p + 4) ++ p ++ replicate (pathPadding p) 0 ++
      intTo4Bytes (-known - 1)
  | .deps out mtime ids =>
    intTo4Bytes (4 * (1 + 2 + ids.length) + 2 ^ 31) ++ intTo4Bytes out ++ intTo4Bytes mtime ++
      intTo4Bytes (mtime / 2 ^ 32) ++ ids.flatMap fun id : Nat => intTo4Bytes id

def padded (p : Path) : List UInt8 := p ++ replicate (pathPadding p) 0

def storedPath (p : Path) : Path := trimNul (trimNul (trimNul (padded p)))

def Entry.stored : Entry → Entry
  | .path p => .path (storedPath p)
  | .deps out mtime ids => .deps (out % 2 ^ 32) (Int.bmod mtime (2 ^ 64)) (ids.map (· % 2 ^ 32))

lemma padded_length (p : Path) : (padded p).length = p.length + pathPadding p := by
  simp [padded]

lemma padded_length_mod (p : Path) : (padded p).length % 4 = 0 := by
  rw [padded_length, pathPadding]
  omega

lemma parseHead_record (known : List Path) {i : Int} {record : List UInt8} (rest : List UInt8)
    (hsize : (i % 2 ^ 32).toNat % 2 ^ 31 = record.length) (hmax : record.length ≤ maxRecordSize) :
    parseHead known (intTo4Bytes i ++ (record ++ rest)) =
      if 2 ^ 31 ≤ (i % 2 ^ 32).toNat then parseDeps record rest
      else parsePath known record rest := by
  have hfield : fieldAt (intTo4Bytes i ++ (record ++ rest)) 0 = (i % 2 ^ 32).toNat :=
    fieldAt_append (a := []) rfl i (record ++ rest)
  have hdrop : (intTo4Bytes i ++ (record ++ rest)).drop 4 = record ++ rest := by
    rw [drop_append_of_le_length (by simp), drop_of_length_le (by simp), nil_append]
  have hlen : ¬ (intTo4Bytes i ++ (record ++ rest)).length < 4 := by simp
  have hfull : ¬ (maxRecordSize < record.length ∨ record.length < record.length) := by omega
  rw [parseHead, if_neg hlen]
  simp only [hfield, hdrop, hsize, take_left, drop_left, if_neg hfull]

lemma bytes_path (known : Nat) (p : Path) : (Entry.path p).bytes known =
    intTo4Bytes (p.length + pathPadding p + 4) ++ (padded p ++ intTo4Bytes (-known - 1)) := by
  simp [Entry.bytes, padded]

/-- A path is read back without what looks like padding, if there is no such path before it. -/
lemma parseHead_path (known : List Path) {p : Path} (rest : List UInt8) (h : ¬ Refused p) :
    parseHead known ((Entry.path p).bytes known.length ++ rest) =
      if storedPath p ∈ known then .stops else .entry (.path (storedPath p)) rest := by
  obtain ⟨hne, hmax⟩ := not_or.mp h
  have hpos : 0 < p.length := length_pos_iff.mpr hne
  have hpadded := padded_length p
  have hmod := padded_length_mod p
  have hlt : maxRecordSize < 2 ^ 31 := by decide
  have hlen : (padded p ++ intTo4Bytes (-known.length - 1)).length =
      p.length + pathPadding p + 4 := by
    simp [hpadded]
  have hsize : ((p.length + pathPadding p + 4 : Int) % 2 ^ 32).toNat =
      p.length + pathPadding p + 4 := by
    omega
  rw [bytes_path, append_assoc, parseHead_record known rest (by rw [hsize, hlen]; omega)
    (by omega), if_neg (by omega), parsePath, if_neg (by omega)]
  have htake : (padded p ++ intTo4Bytes (-known.length - 1)).take
      ((padded p ++ intTo4Bytes (-known.length - 1)).length - 4) = padded p := by
    rw [hlen, take_append_of_le_length (by omega), take_of_length_le (by omega)]
  have hchecksum : fieldAt (padded p ++ intTo4Bytes (-known.length - 1))
      ((padded p ++ intTo4Bytes (-known.length - 1)).length - 4) =
      ((-known.length - 1 : Int) % 2 ^ 32).toNat := by
    have := fieldAt_append (a := padded p) (k := p.length + pathPadding p + 4 - 4) (by omega)
      (-known.length - 1) []
    rwa [append_nil, ← hlen] at this
  have hnuls : ¬ (padded p = [0] ∨ padded p = [0, 0]) := by
    rintro (heq | heq) <;> simp [heq] at hmod
  have hid : known.length % 2 ^ 32 = 2 ^ 32 - 1 - ((-known.length - 1 : Int) % 2 ^ 32).toNat := by
    omega
  simp only [htake, if_neg hnuls, hchecksum]
  simp only [hid, ne_eq, not_true_eq_false, false_or]
  rfl

lemma fields_flatMap (front : List UInt8) (ids : List Nat) {k : Nat} (h : front.length = k) :
    (range ids.length).map (fun i =>
        fieldAt (front ++ ids.flatMap fun id : Nat => intTo4Bytes id) (k + 4 * i)) =
      ids.map (· % 2 ^ 32) := by
  induction ids generalizing front k with
  | nil => rfl
  | cons id ids ih =>
    have hrest := ih (front ++ intTo4Bytes id) (k := k + 4) (by simp [h])
    have hid : ((id : Int) % 2 ^ 32).toNat = id % 2 ^ 32 := by omega
    rw [length_cons, range_succ_eq_map, map_cons, map_map, map_cons,
      flatMap_cons, Nat.mul_zero, Nat.add_zero, fieldAt_append h, hid, ← hrest]
    congr 1
    refine map_congr_left fun i _ => ?_
    rw [Function.comp_apply, append_assoc]
    congr 1
    omega

lemma flatMap_intTo4Bytes_length (ids : List Nat) :
    (ids.flatMap fun id : Nat => intTo4Bytes id).length = 4 * ids.length := by
  induction ids with
  | nil => rfl
  | cons id ids ih =>
    rw [flatMap_cons, length_append, ih, intTo4Bytes_length, length_cons]
    omega

lemma parseHead_deps (known : List Path) (n : Nat) (out : Nat) (mtime : TimeStamp)
    {ids : List Nat} (rest : List UInt8) (h : 4 * (3 + ids.length) ≤ maxRecordSize) :
    parseHead known ((Entry.deps out mtime ids).bytes n ++ rest) =
      .entry (Entry.deps out mtime ids).stored rest := by
  have hlt : maxRecordSize < 2 ^ 31 := by decide
  have hflat := flatMap_intTo4Bytes_length ids
  have hbytes : (Entry.deps out mtime ids).bytes n =
      intTo4Bytes (4 * (1 + 2 + ids.length) + 2 ^ 31) ++ (intTo4Bytes out ++ (intTo4Bytes mtime ++
        (intTo4Bytes (mtime / 2 ^ 32) ++ ids.flatMap fun id : Nat => intTo4Bytes id))) := by
    simp [Entry.bytes]
  have hlen : (intTo4Bytes out ++ (intTo4Bytes mtime ++ (intTo4Bytes (mtime / 2 ^ 32) ++
      ids.flatMap fun id : Nat => intTo4Bytes id))).length = 4 * (3 + ids.length) := by
    simp only [length_append, intTo4Bytes_length, hflat]
    omega
  have hsize : ((4 * (1 + 2 + ids.length) + 2 ^ 31 : Int) % 2 ^ 32).toNat =
      4 * (3 + ids.length) + 2 ^ 31 := by
    omega
  rw [hbytes, append_assoc, parseHead_record known rest (by rw [hsize, hlen]; omega)
    (by rw [hlen]; exact h), if_pos (by omega), parseDeps, if_neg (by omega), if_neg (by omega)]
  have hout : fieldAt (intTo4Bytes out ++ (intTo4Bytes mtime ++ (intTo4Bytes (mtime / 2 ^ 32) ++
      ids.flatMap fun id : Nat => intTo4Bytes id))) 0 = out % 2 ^ 32 := by
    have := fieldAt_append (a := []) rfl out (intTo4Bytes mtime ++ (intTo4Bytes (mtime / 2 ^ 32) ++
      ids.flatMap fun id : Nat => intTo4Bytes id))
    rw [nil_append, length_nil] at this
    omega
  have hlow := fieldAt_append (a := intTo4Bytes out) rfl mtime
    (intTo4Bytes (mtime / 2 ^ 32) ++ ids.flatMap fun id : Nat => intTo4Bytes id)
  have hhigh := fieldAt_append (a := intTo4Bytes out ++ intTo4Bytes mtime) rfl (mtime / 2 ^ 32)
    (ids.flatMap fun id : Nat => intTo4Bytes id)
  have hids := fields_flatMap (intTo4Bytes out ++ (intTo4Bytes mtime ++
    intTo4Bytes (mtime / 2 ^ 32))) ids (k := 12) rfl
  have hcount : 4 * (3 + ids.length) / 4 - 3 = ids.length := by omega
  simp only [append_assoc, length_append, intTo4Bytes_length] at hlow hhigh hids
  simp only [hout, hlow, hhigh, joinMtime_halves, hlen, hcount, hids, Entry.stored]

/-! ### Sequences of records -/

def entriesBytes : Nat → List Entry → List UInt8
  | _, [] => []
  | known, x :: xs => x.bytes known ++ entriesBytes (known + x.path?.toList.length) xs

lemma filterMap_path?_cons (x : Entry) (xs : List Entry) :
    (x :: xs).filterMap Entry.path? = x.path?.toList ++ xs.filterMap Entry.path? := by
  cases x <;> rfl

lemma entriesBytes_append (known : Nat) (xs ys : List Entry) :
    entriesBytes known (xs ++ ys) = entriesBytes known xs ++
      entriesBytes (known + (xs.filterMap Entry.path?).length) ys := by
  induction xs generalizing known with
  | nil => rfl
  | cons x xs ih =>
    rw [cons_append, entriesBytes, ih, entriesBytes, append_assoc, filterMap_path?_cons,
      length_append, Nat.add_assoc]

/-- The records from some bytes on, whatever the fuel. -/
def parseAll (known : List Path) (bytes : List UInt8) : List Entry × Bool :=
  parse (bytes.length + 1) known bytes

lemma parse_fuel {n m : Nat} {bytes : List UInt8} (hn : bytes.length < n) (hm : bytes.length < m) :
    parse n known bytes = parse m known bytes := by
  induction n generalizing m known bytes with
  | zero => exact absurd hn (Nat.not_lt_zero _)
  | succ n ih =>
    obtain ⟨m, rfl⟩ : ∃ k, m = k + 1 := ⟨m - 1, by omega⟩
    rw [parse, parse]
    cases hhead : parseHead known bytes with
    | stops => rfl
    | panics => rfl
    | entry x rest =>
      have hlt := (parseHead_fits hhead).shorter
      simp only [ih (m := m) (show rest.length < n by omega) (by omega)]

lemma parseAll_entry {bytes rest : List UInt8} {x : Entry}
    (h : parseHead known bytes = .entry x rest) :
    parseAll known bytes = (x :: (parseAll (known ++ x.path?.toList) rest).1,
      (parseAll (known ++ x.path?.toList) rest).2) := by
  have hlt := (parseHead_fits h).shorter
  rw [parseAll, parse, h]
  simp only [parseAll, parse_fuel hlt (Nat.lt_succ_self _)]

lemma parseAll_stops {bytes : List UInt8} (h : parseHead known bytes = .stops) :
    parseAll known bytes = ([], true) := by
  rw [parseAll, parse, h]

lemma parseAll_nil (known : List Path) : parseAll known [] = ([], true) :=
  parseAll_stops rfl

/-- The bytes are read as these records, whatever follows them. -/
inductive Spells : List Path → List UInt8 → List Entry → Prop
  | nil (known : List Path) : Spells known [] []
  | cons {known : List Path} {b bs : List UInt8} {x : Entry} {xs : List Entry}
      (head : ∀ rest, parseHead known (b ++ rest) = .entry x rest)
      (tail : Spells (known ++ x.path?.toList) bs xs) : Spells known (b ++ bs) (x :: xs)

lemma Spells.parseAll {bs : List UInt8} {xs : List Entry} (h : Spells known bs xs)
    (rest : List UInt8) : parseAll known (bs ++ rest) =
      (xs ++ (DepsFile.parseAll (known ++ xs.filterMap Entry.path?) rest).1,
        (DepsFile.parseAll (known ++ xs.filterMap Entry.path?) rest).2) := by
  induction h with
  | nil known => simp
  | @cons known b bs x xs head tail ih =>
    rw [append_assoc, parseAll_entry (head _), ih, filterMap_path?_cons, append_assoc]
    rfl

lemma Spells.append {bs cs : List UInt8} {xs ys : List Entry} (h : Spells known bs xs)
    (h' : Spells (known ++ xs.filterMap Entry.path?) cs ys) :
    Spells known (bs ++ cs) (xs ++ ys) := by
  induction h with
  | nil known => simpa using h'
  | @cons known b bs x xs head tail ih =>
    rw [append_assoc, cons_append]
    refine .cons head (ih ?_)
    rwa [filterMap_path?_cons, ← append_assoc] at h'

end Reninja.DepsFile
