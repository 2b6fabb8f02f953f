import Reninja.Filetransfer.Faithful

/-!
# The flattened tree

`HashDirectoryTree` returns the nodes of the tree in a list, for the upload. An uploader that
walks the list from its end meets the contents of a directory before the directory: every digest
that a directory names is the digest of a node further down the list. The proof follows the
recursion of `collectEntries`: the nodes it appends are closed by themselves, and they hold
everything that the directory it fills has come to name.
-/

namespace Reninja

open List

def Directory.references (dir : Directory) : List Digest :=
  dir.files.map (·.digest) ++ dir.directories.map (·.digest)

/-- Every directory of the list names only nodes that come after it. -/
def ReferencesFollow : List UploadableNode → Prop
  | [] => True
  | node :: rest =>
    (∀ dir, node.directory = some dir → dir.references ⊆ rest.map (·.digest)) ∧
      ReferencesFollow rest

lemma ReferencesFollow.append {nodes nodes' : List UploadableNode} (h : ReferencesFollow nodes)
    (h' : ReferencesFollow nodes') : ReferencesFollow (nodes ++ nodes') := by
  induction nodes with
  | nil => exact h'
  | cons node rest ih =>
    refine ⟨fun dir hdir => ?_, ih h.2⟩
    exact List.Subset.trans (h.1 dir hdir) (map_subset _ (subset_append_left _ _))

lemma ReferencesFollow.after {before rest : List UploadableNode} {node : UploadableNode}
    {dir : Directory} (h : ReferencesFollow (before ++ node :: rest))
    (hdir : node.directory = some dir) : dir.references ⊆ rest.map (·.digest) := by
  induction before with
  | nil => exact h.1 dir hdir
  | cons _ _ ih => exact ih h.2

variable (h : Hashing) (fs : FileSystem)

def UploadableNode.ReadsItsDigest (node : UploadableNode) : Prop :=
  ∀ later : FileSystem,
    (∀ diskPath, node.source = .file diskPath → later.lstat diskPath = fs.lstat diskPath) →
    ∃ bytes, node.read h later = .ok bytes ∧ h.compute bytes = node.digest

/-- The nodes can be uploaded as they stand: references follow, and every node reads its digest. -/
structure Flattened (nodes : List UploadableNode) : Prop where
  follow : ReferencesFollow nodes
  reads : ∀ node ∈ nodes, node.ReadsItsDigest h fs

variable {h fs} {p : Project} {root : GoString} {rest : List GoString} {dir dir' : Directory}
  {nodes nodes' visited visited' : List UploadableNode}

lemma Flattened.append (hn : Flattened h fs nodes) (hn' : Flattened h fs nodes') :
    Flattened h fs (nodes ++ nodes') where
  follow := hn.follow.append hn'.follow
  reads node hnode := (mem_append.mp hnode).elim (hn.reads node) (hn'.reads node)

lemma flattened_nil : Flattened h fs [] where
  follow := trivial
  reads := by simp

lemma flattened_file {diskPath content : GoString} {executable : Bool}
    (hfile : fs.lstat diskPath = some (.regular content executable)) :
    Flattened h fs [⟨h.compute content, none, .file diskPath⟩] where
  follow := ⟨by simp, trivial⟩
  reads node hnode later hsame := by
    obtain rfl := mem_singleton.mp hnode
    refine ⟨content, ?_, rfl⟩
    simp only [UploadableNode.read, hsame diskPath rfl, hfile]

lemma flattened_bytes (content : GoString) :
    Flattened h fs [⟨h.compute content, none, .bytes content⟩] where
  follow := ⟨by simp, trivial⟩
  reads node hnode _ _ := by
    obtain rfl := mem_singleton.mp hnode
    exact ⟨content, rfl, rfl⟩

lemma Flattened.cons_directory (hn : Flattened h fs nodes)
    (hrefs : dir.references ⊆ nodes.map (·.digest)) :
    Flattened h fs (⟨h.directory dir, some dir, .directory⟩ :: nodes) where
  follow := by
    refine ⟨fun d hd => ?_, hn.follow⟩
    obtain rfl := Option.some.inj hd
    exact hrefs
  reads node hnode := by
    rcases mem_cons.mp hnode with rfl | hnode
    · exact fun _ _ => ⟨h.marshalDirectory dir, rfl, rfl⟩
    · exact hn.reads node hnode

lemma flattened_syntheticNodes (wd : GoString) :
    Flattened h fs (syntheticNodes h wd root dir) := by
  unfold syntheticNodes
  split_ifs
  · exact flattened_nil
  · exact flattened_bytes _

/-- What the completed directory names is in the tree below it or is the synthetic file. -/
lemma references_addSynthetic (wd : GoString) (hrefs : dir.references ⊆ nodes.map (·.digest)) :
    (addSynthetic h wd root dir).references ⊆
      (nodes ++ syntheticNodes h wd root dir).map (·.digest) := by
  rw [map_append]
  by_cases hsame : addSynthetic h wd root dir = dir
  · rw [hsame]
    exact subset_append_of_subset_left _ hrefs
  · have hsynthetic : addSynthetic h wd root dir =
        { dir with files := [⟨".reninja", h.compute "reninja", false⟩] } ∧ dir = {} := by
      unfold addSynthetic at hsame ⊢
      split_ifs at hsame ⊢ with hempty
      · exact ⟨rfl, hempty.1⟩
      · exact absurd rfl hsame
    rw [syntheticNodes, if_neg hsame, hsynthetic.1, hsynthetic.2]
    exact subset_append_right _ _

lemma Flattened.computeDirTree (wd root : GoString) (hn : Flattened h fs nodes)
    (hrefs : dir.references ⊆ nodes.map (·.digest)) :
    Flattened h fs (⟨h.directory (addSynthetic h wd root dir),
      some (addSynthetic h wd root dir), .directory⟩ :: nodes ++ syntheticNodes h wd root dir) :=
  (hn.append (flattened_syntheticNodes wd)).cons_directory (references_addSynthetic wd hrefs)

/-- The loop goes on from `mid` with `added` appended, and what `mid` names beyond `dir` is there:
what it appends after that completes the list. -/
lemma appends_of_step {mid : Directory} {added : List UploadableNode}
    (hadded : Flattened h fs added) (hmid : mid.references ⊆ dir.references ++ added.map (·.digest))
    (hrest : ∃ new, visited' = visited ++ added ++ new ∧ Flattened h fs new ∧
      dir'.references ⊆ mid.references ++ new.map (·.digest)) :
    ∃ new, visited' = visited ++ new ∧ Flattened h fs new ∧
      dir'.references ⊆ dir.references ++ new.map (·.digest) := by
  obtain ⟨new, rfl, hnew, hrefs⟩ := hrest
  refine ⟨added ++ new, append_assoc _ _ _, hadded.append hnew, fun d hd => ?_⟩
  rw [map_append, ← append_assoc]
  rcases mem_append.mp (hrefs hd) with hd | hd
  · exact mem_append_left _ (hmid hd)
  · exact mem_append_right _ hd

/-- The loop appends a flattened list that holds everything it enters into its directory. -/
lemma collectEntries_appends
    (hok : collectEntries h fs p root rest dir visited = .ok (dir', visited')) :
    ∃ new, visited' = visited ++ new ∧ Flattened h fs new ∧
      dir'.references ⊆ dir.references ++ new.map (·.digest) := by
  induction rest generalizing root dir visited dir' visited' with
  | nil =>
    obtain ⟨rfl, rfl⟩ := Prod.mk.inj (Except.ok.inj hok)
    exact ⟨[], by simp, flattened_nil, by simp⟩
  | cons path rest ih =>
    rw [collectEntries] at hok
    split_ifs at hok with hdir
    · exact ih hok
    · cases hentry : entryAt fs p path with
      | none => simp [hentry] at hok
      | some entry =>
        rw [hentry] at hok
        cases entry with
        | dir =>
          simp only at hok
          cases hsub : collectEntries h fs p path rest {} [] with
          | error err => simp [hsub] at hok
          | ok r =>
            obtain ⟨sub, below⟩ := r
            rw [hsub] at hok
            obtain ⟨new, rfl, hnew, hrefs⟩ := ih hsub
            refine appends_of_step (hnew.computeDirTree p.workingDirectory path hrefs) ?_
              (ih (by simpa using hok))
            simp [Directory.references]
        | regular content executable =>
          refine appends_of_step (flattened_file hentry) ?_ (ih hok)
          simp [Directory.references]
        | symlink target =>
          have hnew := ih hok
          exact hnew
        | other => exact ih hok

/-- The list that `HashDirectoryTree` returns: it starts with the directory whose digest is the
root's, every digest that a directory names is that of a node further down, and every node reads
bytes that have its digest while the files stay as they are. -/
theorem hashDirectoryTree_flattened (h : Hashing) (fs : FileSystem) (p : Project)
    (files : List GoString) (d : Digest) (nodes : List UploadableNode)
    (hok : hashDirectoryTree h fs p files = .ok (d, nodes)) :
    (∃ root contents, nodes = ⟨d, some root, .directory⟩ :: contents ∧ h.directory root = d) ∧
    (∀ before node after dir, nodes = before ++ node :: after → node.directory = some dir →
      ∀ digest ∈ dir.references, ∃ content ∈ after, content.digest = digest) ∧
    ∀ node ∈ nodes, node.ReadsItsDigest h fs := by
  unfold hashDirectoryTree at hok
  cases hclean : cleanPaths p files with
  | error err => simp [hclean] at hok
  | ok cleanedFiles =>
    simp only [hclean, computeDirTree] at hok
    generalize (expandTree p.workingDirectory cleanedFiles).headD [] = root at hok
    generalize (expandTree p.workingDirectory cleanedFiles).tail = paths at hok
    cases hbelow : collectEntries h fs p root paths {} [] with
    | error err => simp [hbelow] at hok
    | ok r =>
      obtain ⟨dir, below⟩ := r
      simp only [hbelow, Except.ok.injEq, Prod.mk.injEq] at hok
      obtain ⟨rfl, rfl⟩ := hok
      obtain ⟨new, rfl, hnew, hrefs⟩ := collectEntries_appends hbelow
      have hflat := hnew.computeDirTree p.workingDirectory root hrefs
      refine ⟨⟨_, _, rfl, rfl⟩, fun before node after dir hsplit hdir digest hd => ?_,
        hflat.reads⟩
      exact mem_map.mp ((hsplit ▸ hflat.follow).after hdir hd)

/-- The theorem on a tree with a file in a directory. -/
theorem hashDirectoryTree_flattened_sampleFiles :
    ∃ d nodes, hashDirectoryTree .byCode sampleFiles sampleProject ["src/a.c", "b.h"] =
        .ok (d, nodes) ∧ ∀ node ∈ nodes, node.ReadsItsDigest .byCode sampleFiles := by
  have hok : (hashDirectoryTree .byCode sampleFiles sampleProject ["src/a.c", "b.h"]).isOk := by
    decide +kernel
  cases hhash : hashDirectoryTree .byCode sampleFiles sampleProject ["src/a.c", "b.h"] with
  | error e => simp [hhash, Except.isOk, Except.toBool] at hok
  | ok r => exact ⟨r.1, r.2, rfl, (hashDirectoryTree_flattened _ _ _ _ _ _ hhash).2.2⟩

end Reninja
