import Reninja.BuildLog.Format
import Reninja.Cachetools.Download
import Reninja.Filetransfer.Path

/-!
# Resource names

`internal/digest/digest.go`: the names under which blobs are uploaded, downloaded and looked up in
the action cache, and the parser that reads them from the back.
-/

namespace Reninja.Digests

open List

open Cachetools (DigestFunction Compressor)
open Filepath (sep joinComponents)

structure Digest where
  hash : GoString := []
  sizeBytes : Int64 := 0
  deriving DecidableEq

inductive CacheType where
  | unknown | ac | cas
  deriving DecidableEq

structure ResourceName where
  digest : Option Digest
  instanceName : GoString := []
  compressor : Compressor := .identity
  cacheType : CacheType
  digestFunction : DigestFunction
  deriving DecidableEq

/-- `GetDigest`, whose getters read a missing digest as an empty one. -/
def ResourceName.getDigest (r : ResourceName) : Digest := r.digest.getD {}

def lowerName : DigestFunction → GoString
  | .unknown    => "unknown"
  | .sha256     => "sha256"
  | .sha1       => "sha1"
  | .md5        => "md5"
  | .vso        => "vso"
  | .sha384     => "sha384"
  | .sha512     => "sha512"
  | .murmur3    => "murmur3"
  | .sha256Tree => "sha256tree"
  | .blake3     => "blake3"

/-- The number of digits of a hash; other functions have none. -/
def hashLength : DigestFunction → Int
  | .blake3 => 64
  | .sha256 => 64
  | .sha384 => 96
  | .sha512 => 128
  | .sha1 => 40
  | .md5 => 32
  | _ => -1

def isOldStyleDigestFunction : DigestFunction → Bool
  | .sha1 | .md5 | .sha256 | .sha384 | .sha512 => true
  | _ => false

def inferOldStyleDigestFunctionInDesperation (d : Digest) : DigestFunction :=
  match d.hash.length with
  | 40 => .sha1
  | 32 => .md5
  | 64 => .sha256
  | 96 => .sha384
  | 128 => .sha512
  | _ => .unknown

/-- A digit of a lower-case hash. A character of several bytes has none of these bytes. -/
def isLowerHexDigit (c : UInt8) : Bool := (48 ≤ c && c ≤ 57) || (97 ≤ c && c ≤ 102)

def isLowerHex (s : GoString) : Bool := s.all isLowerHexDigit

def ResourceName.isEmpty (r : ResourceName) : Bool :=
  Cachetools.emptyHash r.digestFunction = some r.getDigest.hash

def ResourceName.validate (r : ResourceName) : Except GoString Unit :=
  match r.digest with
  | none   => .error "Invalid (nil) Digest"
  | some d =>
    if d.sizeBytes < 0 then
      .error "Invalid (negative) digest size"
    else if d.sizeBytes = 0 then
      if r.isEmpty then .ok () else .error "Invalid (zero-length) SHA256 hash"
    else if (d.hash.length : Int) ≠ hashLength r.digestFunction then
      .error ("Invalid length hash. Expected len " ++
        BuildLog.formatInt (Int64.ofInt (hashLength r.digestFunction)) ++ " for " ++
        (lowerName r.digestFunction).map (fun c => if 97 ≤ c ∧ c ≤ 122 then c - 32 else c) ++
        " function. Got " ++ BuildLog.formatInt (Int64.ofNat d.hash.length))
    else if ¬ isLowerHex d.hash then
      .error "Hash isn't all lower case hex characters."
    else
      .ok ()

def splitList (p : GoString) : List GoString := if p = [] then [] else p.splitOn 58

def joinPaths : List GoString → GoString
  | [] => []
  | e :: es => if e ≠ [] then Filepath.clean (joinComponents (e :: es)) else joinPaths es

def blobTypeSegment : Compressor → GoString
  | .zstd => "compressed-blobs/zstd"
  | _     => "blobs"

/-- The end of every name: the digest function, unless its hashes tell it, the hash and the size. -/
def ResourceName.digestSegments (r : ResourceName) : GoString :=
  (if isOldStyleDigestFunction r.digestFunction then [] else lowerName r.digestFunction ++ [sep]) ++
    r.getDigest.hash ++ [sep] ++ BuildLog.formatInt r.getDigest.sizeBytes

def ResourceName.downloadString (r : ResourceName) : GoString :=
  joinPaths (splitList r.instanceName) ++ [sep] ++ blobTypeSegment r.compressor ++ [sep] ++
    r.digestSegments

abbrev UUID := Fin 16 → UInt8

/-- `String` of a UUID: hexadecimal digits, with dashes before four of the bytes. -/
def UUID.string (u : UUID) : GoString :=
  (finRange 16).flatMap fun i =>
    (if i ∈ [4, 6, 8, 10] then [45] else []) ++
      [Numerals.digitByte ((u i).toNat / 16), Numerals.digitByte ((u i).toNat % 16)]

def ResourceName.newUploadString (r : ResourceName) (u : UUID) : GoString :=
  joinPaths (splitList r.instanceName) ++ "/uploads/" ++ u.string ++ [sep] ++
    blobTypeSegment r.compressor ++ [sep] ++ r.digestSegments

def ResourceName.actionCacheString (r : ResourceName) : GoString :=
  joinPaths (splitList r.instanceName) ++ [sep] ++ blobTypeSegment r.compressor ++
    "/ac/" ++ r.digestSegments

/-! ### Parsing -/

inductive ResourceNameType where
  | upload | download
  deriving DecidableEq

def namedDigestFunction (piece : GoString) : Option DigestFunction :=
  [.blake3, .sha1, .sha512, .sha384, .sha256].find? (lowerName · = piece)

def newResourceName (d : Digest) (cacheType : CacheType) (fn : DigestFunction)
    (compressor : Compressor) (instanceName : GoString) : ResourceName :=
  { digest := some d, instanceName, compressor, cacheType,
    digestFunction := if fn = .unknown then inferOldStyleDigestFunctionInDesperation d else fn }

section

variable (validate : GoString → Bool)
variable {fn : DigestFunction} {d : Digest} {r : ResourceName}
variable {hash : GoString} {name : GoString} {c : Compressor}

def unparseable (problem resourceName : GoString) : Except GoString ResourceName :=
  .error (problem ++ ": " ++ resourceName)

/-- The pieces that are left to read, from the back: the piece to read next stays the same when
they are used up. -/
structure Cursor where
  piece : GoString
  left : List GoString

/-- At the last of some pieces, given from the back, or at an empty one. -/
def Cursor.ofLeft (left : List GoString) : Cursor := ⟨left.head?.getD [], left⟩

def Cursor.back (c : Cursor) : Cursor := ⟨c.left.tail.head?.getD c.piece, c.left.tail⟩

/-- `pieceIdx--`, and the piece there or an empty one. -/
def Cursor.backOrEmpty (c : Cursor) : Cursor := .ofLeft c.left.tail

def parseUpload (resourceName : GoString) (resourceType : ResourceNameType) (c : Cursor)
    (named : GoString → ResourceName) : Except GoString ResourceName :=
  let instanceOf (left : List GoString) := named (joinComponents left.reverse)
  if resourceType = .upload then
    if ¬ validate c.piece then
      unparseable "Unparseable upload resource name, invalid UUID" resourceName
    else
      match c.left.tail with
      | [] => unparseable "Unparseable upload resource name name, not enough pieces" resourceName
      | piece :: left =>
        if piece ≠ "uploads" then
          unparseable "Unparseable upload resource name, missing 'uploads'" resourceName
        else
          .ok (instanceOf left)
  else
    .ok (instanceOf c.left)

def parseBlobType (resourceName : GoString) (resourceType : ResourceNameType) (c : Cursor)
    (named : Compressor → GoString → ResourceName) : Except GoString ResourceName :=
  if c.piece = "zstd" then
    let c := c.backOrEmpty
    if c.piece ≠ "compressed-blobs" then
      unparseable "Unparseable resource name, invalid compressed blob type" resourceName
    else
      parseUpload validate resourceName resourceType c.backOrEmpty (named .zstd)
  else if c.piece ≠ "blobs" then
    unparseable "Unparseable resource name, invalid compressed blob type" resourceName
  else
    parseUpload validate resourceName resourceType c.backOrEmpty (named .identity)

def parseCacheType (resourceName : GoString) (cacheType : CacheType)
    (resourceType : ResourceNameType) (c : Cursor) (named : Compressor → GoString → ResourceName) :
    Except GoString ResourceName :=
  if cacheType = .ac then
    if c.piece ≠ "ac" then
      unparseable "Unparseable Action Cache resource name, missing 'ac' blob type" resourceName
    else
      parseBlobType validate resourceName resourceType c.back named
  else
    parseBlobType validate resourceName resourceType c named

def parseDigestFunction (resourceName : GoString) (cacheType : CacheType)
    (resourceType : ResourceNameType) (d : Digest) (c : Cursor) : Except GoString ResourceName :=
  let named := namedDigestFunction c.piece
  let fn := named.getD (inferOldStyleDigestFunctionInDesperation d)
  if (d.hash.length : Int) ≠ hashLength fn then
    unparseable "Unparseable resource name, invalid hash (wrong length)" resourceName
  else
    parseCacheType validate resourceName cacheType resourceType
      (if named.isSome then c.back else c) (newResourceName d cacheType fn)

def parseResourceName (resourceName : GoString) (cacheType : CacheType)
    (resourceType : ResourceNameType) : Except GoString ResourceName :=
  let pieces := resourceName.splitOn sep
  if pieces.length < 3 ∨ (cacheType = .ac ∧ pieces.length < 4) ∨
      (resourceType = .upload ∧ pieces.length < 5) then
    unparseable "Unparseable resource name, not enough pieces" resourceName
  else
    match pieces.reverse with
    | size :: hash :: left =>
      match BuildLog.parseInt size with
      | none => unparseable "Unparseable resource name, invalid size" resourceName
      | some sizeBytes =>
        let d : Digest := ⟨hash, sizeBytes⟩
        if sizeBytes < 0 then
          unparseable "Unparseable resource name, negative size" resourceName
        else if inferOldStyleDigestFunctionInDesperation d = .unknown then
          unparseable "Unparseable resource name, invalid hash (wrong length)" resourceName
        else if ¬ isLowerHex hash then
          unparseable "Unparseable resource name, invalid hash (bad character(s))" resourceName
        else
          parseDigestFunction validate resourceName cacheType resourceType d (.ofLeft left)
    | _ => unparseable "Unparseable resource name, not enough pieces" resourceName

/-- `CheckCAS` and `CheckAC`; the message prints the name, which is left out. -/
def ResourceName.check (cacheType : CacheType) (problem : GoString) (r : ResourceName) :
    Except GoString ResourceName :=
  if r.cacheType ≠ cacheType then .error problem else .ok r

def parseUploadResourceName (resourceName : GoString) : Except GoString ResourceName :=
  (parseResourceName validate resourceName .cas .upload).bind
    (ResourceName.check .cas "ResourceName is not a CAS resource name")

def parseDownloadResourceName (resourceName : GoString) : Except GoString ResourceName :=
  (parseResourceName validate resourceName .cas .download).bind
    (ResourceName.check .cas "ResourceName is not a CAS resource name")

def parseActionCacheResourceName (resourceName : GoString) : Except GoString ResourceName :=
  (parseResourceName validate resourceName .ac .download).bind
    (ResourceName.check .ac "ResourceName is not an AC resource name")

/-! ### Reading what was written -/

def blobPieces : Compressor → List GoString
  | .zstd => ["compressed-blobs", "zstd"]
  | _     => ["blobs"]

def digestPieces (fn : DigestFunction) (d : Digest) : List GoString :=
  (if isOldStyleDigestFunction fn then [] else [lowerName fn]) ++
    [d.hash, BuildLog.formatInt d.sizeBytes]

def cachePieces : CacheType → List GoString
  | .ac => ["ac"]
  | _ => []

def uploadPieces (u : GoString) : ResourceNameType → List GoString
  | .upload   => ["uploads", u]
  | .download => []

lemma parseUpload_uploadPieces (resourceName : GoString) (resourceType : ResourceNameType)
    {u : GoString} (hu : resourceType = .upload → validate u = true) (rest : List GoString)
    (named : GoString → ResourceName) :
    parseUpload validate resourceName resourceType
        (.ofLeft ((uploadPieces u resourceType).reverse ++ rest)) named =
      .ok (named (joinComponents rest.reverse)) := by
  cases resourceType with
  | upload => simp [parseUpload, uploadPieces, Cursor.ofLeft, hu rfl]
  | download => simp [parseUpload, uploadPieces, Cursor.ofLeft]

lemma parseBlobType_blobPieces (resourceName : GoString) (resourceType : ResourceNameType)
    {c : Compressor} (hc : c = .identity ∨ c = .zstd) (rest : List GoString)
    (named : Compressor → GoString → ResourceName) :
    parseBlobType validate resourceName resourceType (.ofLeft ((blobPieces c).reverse ++ rest))
      named = parseUpload validate resourceName resourceType (.ofLeft rest) (named c) := by
  have hblobs : ("blobs" : GoString) ≠ "zstd" := by decide +kernel
  rcases hc with rfl | rfl
  · simp [parseBlobType, blobPieces, Cursor.ofLeft, Cursor.backOrEmpty, hblobs]
  · simp [parseBlobType, blobPieces, Cursor.ofLeft, Cursor.backOrEmpty]

lemma namedDigestFunction_none {cacheType : CacheType} {rest : List GoString} : namedDigestFunction
      (Cursor.ofLeft ((cachePieces cacheType).reverse ++ ((blobPieces c).reverse ++ rest))).piece =
        none := by
  have hac : namedDigestFunction "ac" = none := by decide +kernel
  have hblobs : namedDigestFunction "blobs" = none := by decide +kernel
  have hzstd : namedDigestFunction "zstd" = none := by decide +kernel
  cases cacheType <;> cases c <;> assumption

lemma Cursor.back_ofLeft (p : GoString) {left : List GoString} (h : left ≠ []) :
    (Cursor.ofLeft (p :: left)).back = .ofLeft left := by
  cases left with
  | nil => exact absurd rfl h
  | cons q left => rfl

lemma blobPieces_ne (c : Compressor) : blobPieces c ≠ [] := by cases c <;> simp [blobPieces]

lemma blobPieces_ne_nil (c : Compressor) (rest : List GoString) :
    (blobPieces c).reverse ++ rest ≠ [] := by
  simp [blobPieces_ne]

lemma parseCacheType_cachePieces (resourceName : GoString) (cacheType : CacheType)
    (resourceType : ResourceNameType) (c : Compressor) (rest : List GoString)
    (named : Compressor → GoString → ResourceName) :
    parseCacheType validate resourceName cacheType resourceType
        (.ofLeft ((cachePieces cacheType).reverse ++ ((blobPieces c).reverse ++ rest))) named =
      parseBlobType validate resourceName resourceType (.ofLeft ((blobPieces c).reverse ++ rest))
        named := by
  cases cacheType with
  | ac =>
    have hback := Cursor.back_ofLeft "ac" (blobPieces_ne_nil c rest)
    rw [parseCacheType, if_pos rfl, cachePieces, reverse_singleton, singleton_append,
      if_neg (by simp [Cursor.ofLeft]), hback]
  | unknown => rfl
  | cas => rfl

lemma infer_of_isOldStyle (hlength : (d.hash.length : Int) = hashLength fn)
    (h : isOldStyleDigestFunction fn = true) : inferOldStyleDigestFunctionInDesperation d = fn := by
  cases fn <;> first
    | exact absurd h (by decide)
    | simp [inferOldStyleDigestFunctionInDesperation,
        show d.hash.length = _ from Int.ofNat.inj hlength]

lemma eq_blake3_of_not_isOldStyle (hlength : (d.hash.length : Int) = hashLength fn)
    (h : ¬ isOldStyleDigestFunction fn = true) : fn = .blake3 := by
  cases fn <;> first
    | rfl
    | exact absurd rfl h
    | exact absurd (Int.natCast_nonneg d.hash.length) (hlength ▸ by decide)

lemma parseDigestFunction_pieces (resourceName : GoString) (cacheType : CacheType)
    (resourceType : ResourceNameType) (hlength : (d.hash.length : Int) = hashLength fn)
    (c : Compressor) (rest : List GoString) :
    parseDigestFunction validate resourceName cacheType resourceType d
        (.ofLeft ((if isOldStyleDigestFunction fn then [] else [lowerName fn]) ++
          ((cachePieces cacheType).reverse ++ ((blobPieces c).reverse ++ rest)))) =
      parseBlobType validate resourceName resourceType (.ofLeft ((blobPieces c).reverse ++ rest))
        (newResourceName d cacheType fn) := by
  have hne := blobPieces_ne_nil c rest
  have hpieces := parseCacheType_cachePieces validate resourceName cacheType resourceType c rest
    (newResourceName d cacheType fn)
  by_cases hold : isOldStyleDigestFunction fn = true
  · have hinfer := infer_of_isOldStyle hlength hold
    simp only [parseDigestFunction, if_pos hold, nil_append, namedDigestFunction_none,
      Option.getD_none, hinfer, hlength, ne_eq, not_true_eq_false, if_false, Option.isSome_none,
      Bool.false_eq_true, hpieces]
  · obtain rfl := eq_blake3_of_not_isOldStyle hlength hold
    have hnamed : namedDigestFunction (lowerName .blake3) = some .blake3 := by decide +kernel
    have hback := Cursor.back_ofLeft (lowerName .blake3)
      (append_ne_nil_of_right_ne_nil (cachePieces cacheType).reverse hne)
    have hpiece : ∀ left, (Cursor.ofLeft (lowerName .blake3 :: left)).piece = lowerName .blake3 :=
      fun _ => rfl
    simp only [parseDigestFunction, if_neg hold, singleton_append, hpiece, hnamed,
      Option.getD_some, hlength, ne_eq, not_true_eq_false, if_false, Option.isSome_some, if_true,
      hback, hpieces]

/-! ### Names that are written -/

lemma emptyHash_valid (h : Cachetools.emptyHash fn = some hash) :
    (hash.length : Int) = hashLength fn ∧ isLowerHex hash = true := by
  cases fn <;> first
    | (obtain rfl := Option.some.inj h; decide +kernel)
    | cases h

lemma ResourceName.validate_ok (h : r.validate = .ok ()) :
    ∃ d, r.digest = some d ∧ ¬ d.sizeBytes < 0 ∧
      (d.hash.length : Int) = hashLength r.digestFunction ∧ isLowerHex d.hash = true := by
  unfold ResourceName.validate at h
  cases hd : r.digest with
  | none => simp [hd] at h
  | some d =>
    simp only [hd] at h
    by_cases hneg : d.sizeBytes < 0
    · simp [hneg] at h
    refine ⟨d, rfl, hneg, ?_⟩
    by_cases hzero : d.sizeBytes = 0
    · -- the hash is that of the empty blob
      have hempty : Cachetools.emptyHash r.digestFunction = some d.hash := by
        by_contra hne
        simp [hzero, ResourceName.isEmpty, ResourceName.getDigest, hd, hne] at h
      exact emptyHash_valid hempty
    · by_cases hlength : (d.hash.length : Int) ≠ hashLength r.digestFunction
      · simp [hneg, hzero, hlength] at h
      by_cases hhex : isLowerHex d.hash = true
      · exact ⟨not_not.mp hlength, hhex⟩
      · simp [hneg, hzero, hlength, hhex] at h

def IsInstanceName (name : GoString) : Prop := name = [] ∨ (Filepath.clean name = name ∧ 58 ∉ name)

lemma joinPaths_splitList (h : IsInstanceName name) : joinPaths (splitList name) = name := by
  by_cases hnil : name = []
  · rw [hnil]
    rfl
  · obtain ⟨hclean, hcolon⟩ := h.resolve_left hnil
    have hsplit : name.splitOn 58 = [name] := by
      have hjoin : ([58].intercalate [name]).splitOn 58 = [name] :=
        splitOn_intercalate 58 (by simpa using hcolon) (by simp)
      simpa [intercalate] using hjoin
    rw [splitList, if_neg hnil, hsplit, joinPaths, if_pos hnil, Filepath.joinComponents_singleton,
      hclean]

lemma blobTypeSegment_eq (c : Compressor) : blobTypeSegment c = joinComponents (blobPieces c) := by
  cases c <;> decide +kernel

lemma digestSegments_eq (hd : r.digest = some d) :
    r.digestSegments = joinComponents (digestPieces r.digestFunction d) := by
  rw [ResourceName.digestSegments, digestPieces, ResourceName.getDigest, hd, Option.getD_some]
  split <;> simp [Filepath.joinComponents_cons]

lemma sep_notMem_digitByte {n : Nat} (h : n < 16) : sep ≠ Numerals.digitByte n := by
  interval_cases n <;> decide

lemma sep_notMem_string (u : UUID) : sep ∉ u.string := by
  intro hmem
  obtain ⟨i, -, hi⟩ := mem_flatMap.mp hmem
  have hlt := (u i).toNat_lt
  rcases mem_append.mp hi with hi | hi
  · split at hi
    · exact absurd (mem_singleton.mp hi) (by decide)
    · cases hi
  · simp only [mem_cons, not_mem_nil, or_false] at hi
    rcases hi with hi | hi
    · exact sep_notMem_digitByte (by omega) hi
    · exact sep_notMem_digitByte (by omega) hi

lemma sep_notMem_of_isLowerHex (h : isLowerHex hash = true) : sep ∉ hash := by
  intro hmem
  exact absurd (all_eq_true.mp h sep hmem) (by decide)

lemma sep_notMem_formatInt (x : Int64) : sep ∉ BuildLog.formatInt x := by
  have hdigits : sep ∉ Numerals.format 10 x.toInt.natAbs :=
    BuildLog.notMem_of_isDigit (BuildLog.isDigit_formatNat _) (by decide)
  unfold BuildLog.formatInt
  split
  next =>
    rw [mem_cons, not_or]
    exact ⟨by decide, hdigits⟩
  next => exact hdigits

def ResourceName.pieces (r : ResourceName) (d : Digest) (u : GoString) (cacheType : CacheType)
    (resourceType : ResourceNameType) : List GoString :=
  uploadPieces u resourceType ++ (blobPieces r.compressor ++
    (cachePieces cacheType ++ digestPieces r.digestFunction d))

lemma sep_notMem_pieces (hhex : isLowerHex d.hash = true) (u : UUID) (cacheType : CacheType)
    (resourceType : ResourceNameType) :
    ∀ piece ∈ r.pieces d u.string cacheType resourceType, sep ∉ piece := by
  have hupload : ∀ piece ∈ uploadPieces u.string resourceType, sep ∉ piece := by
    cases resourceType with
    | upload =>
      simp only [uploadPieces, forall_mem_cons]
      exact ⟨by decide +kernel, sep_notMem_string u, by simp⟩
    | download => simp [uploadPieces]
  have hblob : ∀ piece ∈ blobPieces r.compressor, sep ∉ piece := by
    cases r.compressor <;> decide +kernel
  have hcache : ∀ piece ∈ cachePieces cacheType, sep ∉ piece := by
    cases cacheType <;> decide +kernel
  have hdigest : ∀ piece ∈ digestPieces r.digestFunction d, sep ∉ piece := by
    have hname : sep ∉ lowerName r.digestFunction := by cases r.digestFunction <;> decide +kernel
    rw [digestPieces]
    split <;> simp [hname, sep_notMem_of_isLowerHex hhex, sep_notMem_formatInt]
  simp only [ResourceName.pieces, forall_mem_append]
  exact ⟨hupload, hblob, hcache, hdigest⟩

lemma splitOn_pieces {pieces : List GoString} (hne : pieces ≠ [])
    (h : ∀ piece ∈ pieces, sep ∉ piece) :
    (name ++ sep :: joinComponents pieces).splitOn sep = name.splitOn sep ++ pieces := by
  have hname : joinComponents (name.splitOn sep) = name := intercalate_splitOn sep
  rw [← hname, ← Filepath.joinComponents_append (splitOn_ne_nil sep name) hne,
    Filepath.splitOn_joinComponents (by simp [hne]), hname]
  exact forall_mem_append.mpr ⟨fun _ => LineReader.notMem_of_mem_splitOn name, h⟩

lemma ResourceName.reverse_pieces (r : ResourceName) (d : Digest) (u : GoString)
    (cacheType : CacheType) (resourceType : ResourceNameType) :
    (r.pieces d u cacheType resourceType).reverse = BuildLog.formatInt d.sizeBytes :: d.hash ::
      ((if isOldStyleDigestFunction r.digestFunction then [] else [lowerName r.digestFunction]) ++
        ((cachePieces cacheType).reverse ++ ((blobPieces r.compressor).reverse ++
          (uploadPieces u resourceType).reverse))) := by
  simp only [ResourceName.pieces, digestPieces]
  split <;> simp

lemma ResourceName.length_pieces (r : ResourceName) (d : Digest) (u : GoString)
    (cacheType : CacheType) (resourceType : ResourceNameType) :
    3 ≤ (r.pieces d u cacheType resourceType).length ∧
      (cacheType = .ac → 4 ≤ (r.pieces d u cacheType resourceType).length) ∧
      (resourceType = .upload → 5 ≤ (r.pieces d u cacheType resourceType).length) := by
  have hblob : 1 ≤ (blobPieces r.compressor).length := by cases r.compressor <;> decide
  have hdigest : 2 ≤ (digestPieces r.digestFunction d).length := by simp [digestPieces]
  simp only [ResourceName.pieces, length_append]
  refine ⟨by omega, ?_, ?_⟩
  · rintro rfl
    simp only [cachePieces, length_singleton]
    omega
  · rintro rfl
    simp only [uploadPieces, length_cons, length_nil]
    omega

lemma infer_ne_unknown (hlength : (d.hash.length : Int) = hashLength fn) :
    inferOldStyleDigestFunctionInDesperation d ≠ .unknown := by
  by_cases hold : isOldStyleDigestFunction fn = true
  · rw [infer_of_isOldStyle hlength hold]
    rintro rfl
    cases hold
  · obtain rfl := eq_blake3_of_not_isOldStyle hlength hold
    rw [infer_of_isOldStyle (show (d.hash.length : Int) = hashLength .sha256 from hlength) rfl]
    decide

lemma parseResourceName_pieces (h : r.validate = .ok ())
    (hc : r.compressor = .identity ∨ r.compressor = .zstd) (hd : r.digest = some d) {u : UUID}
    (cacheType : CacheType) (resourceType : ResourceNameType)
    (hu : resourceType = .upload → validate u.string = true) : parseResourceName validate
        (r.instanceName ++ sep :: joinComponents (r.pieces d u.string cacheType resourceType))
        cacheType resourceType = .ok { r with cacheType := cacheType } := by
  obtain ⟨d', hd', hsize, hlength, hhex⟩ := r.validate_ok h
  obtain rfl := Option.some.inj (hd.symm.trans hd')
  obtain ⟨hthree, hfour, hfive⟩ := r.length_pieces d u.string cacheType resourceType
  have hne : r.pieces d u.string cacheType resourceType ≠ [] := by
    intro hnil
    simp [hnil] at hthree
  have hfn : r.digestFunction ≠ .unknown := by
    intro hunknown
    rw [hunknown] at hlength
    exact absurd (Int.natCast_nonneg d.hash.length) (hlength ▸ by decide)
  have hname : joinComponents (r.instanceName.splitOn sep) = r.instanceName :=
    intercalate_splitOn sep
  simp only [parseResourceName,
    splitOn_pieces hne (sep_notMem_pieces hhex u cacheType resourceType), reverse_append,
    r.reverse_pieces, cons_append, append_assoc, BuildLog.parseInt_formatInt, if_neg hsize,
    infer_ne_unknown hlength, hhex, if_false, not_true_eq_false,
    parseDigestFunction_pieces validate _ _ _ hlength, parseBlobType_blobPieces validate _ _ hc,
    parseUpload_uploadPieces validate _ _ hu, reverse_reverse, hname]
  rw [if_neg, newResourceName, if_neg hfn, ← hd]
  rw [length_append]
  rintro (hlt | ⟨hac, hlt⟩ | ⟨hupload, hlt⟩)
  · omega
  · have := hfour hac
    omega
  · have := hfive hupload
    omega

lemma digestPieces_ne (fn : DigestFunction) (d : Digest) : digestPieces fn d ≠ [] := by
  simp [digestPieces]

lemma parseDownloadResourceName_downloadString (h : r.validate = .ok ())
    (hc : r.compressor = .identity ∨ r.compressor = .zstd) (hname : IsInstanceName r.instanceName) :
    parseDownloadResourceName validate r.downloadString = .ok { r with cacheType := .cas } := by
  obtain ⟨d, hd, -⟩ := r.validate_ok h
  have hstring : r.downloadString =
      r.instanceName ++
        sep :: joinComponents (r.pieces d (UUID.string fun _ => 0) .cas .download) := by
    simp [ResourceName.downloadString, joinPaths_splitList hname, blobTypeSegment_eq,
      digestSegments_eq hd, ResourceName.pieces, uploadPieces, cachePieces,
      Filepath.joinComponents_append (blobPieces_ne r.compressor) (digestPieces_ne _ d)]
  rw [parseDownloadResourceName, hstring,
    parseResourceName_pieces validate h hc hd .cas .download (by simp)]
  rfl

/-- What each of the three functions writes is read back by its parser as the same resource name,
for any way to check UUIDs that accepts the UUID of the upload. -/
theorem parse_resourceNames {r : ResourceName} (h : r.validate = .ok ())
    (hc : r.compressor = .identity ∨ r.compressor = .zstd) (hname : IsInstanceName r.instanceName)
    {u : UUID} (hu : validate u.string = true) :
    parseDownloadResourceName validate r.downloadString = .ok { r with cacheType := .cas } ∧
      parseUploadResourceName validate (r.newUploadString u) = .ok { r with cacheType := .cas } ∧
      parseActionCacheResourceName validate r.actionCacheString =
        .ok { r with cacheType := .ac } := by
  obtain ⟨d, hd, -⟩ := r.validate_ok h
  have hblob := blobPieces_ne r.compressor
  have hdigest := digestPieces_ne r.digestFunction d
  have hslashes : "/uploads/" = sep :: ("uploads" ++ [sep]) ∧
      "/ac/" = sep :: ("ac" ++ [sep]) := by decide +kernel
  refine ⟨parseDownloadResourceName_downloadString validate h hc hname, ?_, ?_⟩
  · have hstring : r.newUploadString u =
        r.instanceName ++ sep :: joinComponents (r.pieces d u.string .cas .upload) := by
      simp [ResourceName.newUploadString, joinPaths_splitList hname, blobTypeSegment_eq,
        digestSegments_eq hd, ResourceName.pieces, uploadPieces, cachePieces, hslashes.1,
        Filepath.joinComponents_append hblob hdigest, Filepath.joinComponents_cons, hblob]
    rw [parseUploadResourceName, hstring,
      parseResourceName_pieces validate h hc hd .cas .upload fun _ => hu]
    rfl
  · have hstring : r.actionCacheString =
        r.instanceName ++ sep :: joinComponents (r.pieces d u.string .ac .download) := by
      simp [ResourceName.actionCacheString, joinPaths_splitList hname, blobTypeSegment_eq,
        digestSegments_eq hd, ResourceName.pieces, uploadPieces, cachePieces, hslashes.2,
        Filepath.joinComponents_append hblob, Filepath.joinComponents_cons hdigest]
    rw [parseActionCacheResourceName, hstring,
      parseResourceName_pieces validate h hc hd .ac .download fun _ => hu]
    rfl

def sampleName : ResourceName :=
  { digest := some ⟨"2d3adedff11b61f14c886e35afa036736dcd87a74d27b5c1510225d0f592e213", 7⟩
    instanceName := "blobs/ac", compressor := .zstd, cacheType := .cas, digestFunction := .blake3 }

theorem parse_resourceNames_sampleName :
    sampleName.validate = .ok () ∧
      parseDownloadResourceName (fun _ => true) sampleName.downloadString = .ok sampleName :=
  have hvalid : sampleName.validate = .ok () := by decide +kernel
  ⟨hvalid, (parse_resourceNames (fun _ => true) hvalid (.inr rfl) (.inr (by decide +kernel))
    (u := fun _ => 0) rfl).1⟩

end

end Reninja.Digests
