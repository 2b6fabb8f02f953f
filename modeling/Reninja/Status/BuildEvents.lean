import Reninja.Digest.ResourceName

/-!
# Published output files

`computeBESFiles` in `internal/status`: the files of a build event, made from the output files that
were uploaded.
-/

namespace Reninja.Status

open Digests (ResourceName IsInstanceName)
open Cachetools (DigestFunction)
open Filepath (sep)

/-- `repb.OutputFile`, with a digest that may be missing. -/
structure UploadedFile where
  path : GoString
  digest : Option Digests.Digest

def UploadedFile.getDigest (file : UploadedFile) : Digests.Digest := file.digest.getD {}

/-- `bespb.File`, with a URI. -/
structure BESFile where
  name : GoString
  uri : GoString
  digest : GoString
  length : Int64
  deriving DecidableEq

/-- The flags of the remote cache. -/
structure CacheFlags where
  bytestreamURIPrefix : GoString
  instanceName : GoString
  digestFunction : DigestFunction

variable (flags : CacheFlags)

def CacheFlags.resourceName (file : UploadedFile) : ResourceName :=
  { Digests.newResourceName file.getDigest .cas flags.digestFunction .identity
      flags.instanceName with digest := file.digest }

def CacheFlags.besFile (file : UploadedFile) : BESFile where
  name := file.path
  uri := flags.bytestreamURIPrefix ++ [sep] ++ (flags.resourceName file).downloadString
  digest := file.getDigest.hash
  length := file.getDigest.sizeBytes

/-- `computeBESFiles`: the files are appended to a slice that was made with the length of the
list. -/
def computeBESFiles (uploadedFiles : List UploadedFile) : List (Option BESFile) :=
  uploadedFiles.foldl (fun besFiles file => besFiles ++ [some (flags.besFile file)])
    (List.replicate uploadedFiles.length none)

lemma computeBESFiles_eq (files : List UploadedFile) :
    computeBESFiles flags files =
      List.replicate files.length none ++ files.map fun file => some (flags.besFile file) := by
  have hfoldl : ∀ acc : List (Option BESFile),
      files.foldl (fun besFiles file => besFiles ++ [some (flags.besFile file)]) acc =
        acc ++ files.map fun file => some (flags.besFile file) := by
    induction files with
    | nil => simp
    | cons file files ih => simp [ih]
  exact hfoldl _

section Published

variable (validate : GoString → Bool)

/-- A published file is that of an uploaded one, and its URI leads to the blob. -/
structure CacheFlags.Publishes (file : UploadedFile) (besFile : BESFile) : Prop where
  name : besFile.name = file.path
  digest : besFile.digest = file.getDigest.hash
  length : besFile.length = file.getDigest.sizeBytes
  uri : ∃ name r, besFile.uri = flags.bytestreamURIPrefix ++ [sep] ++ name ∧
    Digests.parseDownloadResourceName validate name = .ok r ∧ r.digest = file.digest ∧
    r.instanceName = flags.instanceName ∧ r.digestFunction = flags.digestFunction

def CacheFlags.Matches (files : List UploadedFile) (besFiles : List (Option BESFile)) : Prop :=
  List.Forall₂ (fun file besFile => ∃ f, besFile = some f ∧ flags.Publishes validate file f)
    files besFiles

variable {flags}

lemma besFile_publishes {file : UploadedFile} (hvalid : (flags.resourceName file).validate = .ok ())
    (hname : IsInstanceName flags.instanceName) (hfn : flags.digestFunction ≠ .unknown) :
    flags.Publishes validate file (flags.besFile file) where
  name := rfl
  digest := rfl
  length := rfl
  uri := by
    refine ⟨_, _, rfl, Digests.parseDownloadResourceName_downloadString validate hvalid (.inl rfl)
      hname, rfl, rfl, ?_⟩
    exact if_neg hfn

/-- Behind the elements that the slice was made with, the list is right. -/
theorem drop_computeBESFiles_matches {files : List UploadedFile}
    (hvalid : ∀ file ∈ files, (flags.resourceName file).validate = .ok ())
    (hname : IsInstanceName flags.instanceName) (hfn : flags.digestFunction ≠ .unknown) :
    flags.Matches validate files ((computeBESFiles flags files).drop files.length) := by
  rw [computeBESFiles_eq, List.drop_left' (by simp), CacheFlags.Matches, List.forall₂_map_right_iff,
    List.forall₂_same]
  exact fun file hfile => ⟨_, rfl, besFile_publishes validate (hvalid file hfile) hname hfn⟩

theorem drop_computeBESFiles_single :
    let flags : CacheFlags := ⟨"bytestream://cache", "main", .sha256⟩
    let file : UploadedFile := ⟨"a.o",
      some ⟨"e3b0c44298fc1c149afbf4c8996fb92427ae41e4649b934ca495991b7852b855", 0⟩⟩
    flags.Matches (fun _ => true) [file] ((computeBESFiles flags [file]).drop 1) :=
  drop_computeBESFiles_matches _ (by decide +kernel) (.inr (by decide +kernel)) (by decide)

/-- The list is twice as long as it should be, so only an empty one is right. -/
theorem computeBESFiles_matches_iff (files : List UploadedFile) :
    flags.Matches validate files (computeBESFiles flags files) ↔ files = [] := by
  constructor
  · intro h
    have hlength := h.length_eq
    rw [computeBESFiles_eq, List.length_append, List.length_replicate, List.length_map] at hlength
    exact List.length_eq_zero_iff.mp (by omega)
  · rintro rfl
    exact .nil

/-- One empty file is published with a missing file in front of it. -/
theorem computeBESFiles_single :
    let flags : CacheFlags := ⟨"bytestream://cache", "main", .sha256⟩
    let file : UploadedFile := ⟨"a.o",
      some ⟨"e3b0c44298fc1c149afbf4c8996fb92427ae41e4649b934ca495991b7852b855", 0⟩⟩
    (flags.resourceName file).validate = .ok () ∧ IsInstanceName flags.instanceName ∧
      computeBESFiles flags [file] = [none, some (flags.besFile file)] ∧
      ¬ flags.Matches (fun _ => true) [file] (computeBESFiles flags [file]) := by
  intro flags file
  exact ⟨by decide +kernel, .inr (by decide +kernel), rfl,
    fun h => absurd h.length_eq (by simp [computeBESFiles])⟩

end Published

end Reninja.Status
