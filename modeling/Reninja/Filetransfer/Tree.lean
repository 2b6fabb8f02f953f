import Reninja.Filetransfer.Path
import Reninja.Remote.Messages

/-!
# Merkle trees of input files

`HashDirectoryTree`: the listed files, with the directories above them, are sorted so that a
directory comes before what it holds, and one `Directory` message is made for each directory.
-/

namespace Reninja

open Filepath

/-- What the `ReadFn` of a node opens: the marshalled message of its directory, a file on disk or
bytes in memory. -/
inductive Source where
  | directory
  | file (diskPath : GoString)
  | bytes (content : GoString)
  deriving DecidableEq, Repr

/-- A node of the tree that can be uploaded; directories carry their message. -/
structure UploadableNode where
  digest : Digest
  directory : Option Directory
  source : Source
  deriving DecidableEq, Repr

/-- What `Lstat` tells of a path. -/
inductive Entry where
  | dir
  | regular (content : GoString) (ownerExecutable : Bool)
  | symlink (target : GoString)
  | other
  deriving DecidableEq, Repr

/-- The files at one moment, by absolute clean path. `stat` follows symbolic links and tells
whether there is a file. -/
structure FileSystem where
  lstat : GoString → Option Entry
  stat : GoString → Except GoString Bool := fun q => .ok (lstat q).isSome

/-- The error of `Lstat` for a path that does not exist. -/
def notFound (q : GoString) : GoString :=
  "lstat " ++ q ++ ": no such file or directory"

/-- Call the `ReadFn` of a node and read what it opens. A file that is no longer a regular file
is not followed further. -/
def UploadableNode.read (h : Hashing) (fs : FileSystem) (node : UploadableNode) :
    Except GoString GoString :=
  match node.source with
  | .directory => .ok ((node.directory.map h.marshalDirectory).getD [])
  | .bytes content => .ok content
  | .file diskPath =>
    match fs.lstat diskPath with
    | some (.regular content _) => .ok content
    | _ => .error ("open " ++ diskPath ++ ": no such file or directory")

/-- The project root and the working directory, both absolute. -/
structure Project where
  root : GoString
  cwd : GoString

/-- `WorkingDirectory`: the working directory relative to the root, empty for the root. -/
def Project.workingDirectory (p : Project) : GoString :=
  match rel p.root p.cwd with
  | .error _ => []
  | .ok wd => if wd = dot then [] else wd

def Project.absolute (p : Project) (path : GoString) : GoString :=
  if isAbs path then path else join p.cwd path

def cleanPath (p : Project) (dirtyPath : GoString) : Except GoString GoString :=
  rel p.root (p.absolute dirtyPath)

def cleanPaths (p : Project) (dirty : List GoString) : Except GoString (List GoString) :=
  dirty.mapM (cleanPath p)

/-- Compare bytes, with the separator before everything else. -/
def hierarchicalPathCompare : GoString → GoString → Int
  | [], b₂ => -b₂.length
  | b₁, [] => b₁.length
  | c₁ :: b₁, c₂ :: b₂ =>
    if c₁ = c₂ then hierarchicalPathCompare b₁ b₂
    else if c₁ = sep then -1
    else if c₂ = sep then 1
    else if c₁ < c₂ then -1
    else 1

/-- The parts of a path before each of its separators. -/
def subPaths : GoString → List GoString
  | [] => []
  | c :: p => (if c = sep then [[]] else []) ++ (subPaths p).map (c :: ·)

/-- The working directory and its parents, for a tree that must hold it. -/
def workingDirectories : Nat → GoString → List GoString
  | 0, _ => []
  | fuel + 1, wd =>
    if wd = dot ∨ wd = [] then [] else wd :: workingDirectories fuel (dir wd)

/-- The keys of the map of `expandTree`, in the order of their first insertion. -/
def treePaths (wd : GoString) (cleanedFiles : List GoString) : List GoString :=
  (dot :: cleanedFiles.flatMap (fun p => (subPaths p).filter (· ≠ []) ++ [p]) ++
    workingDirectories wd.length wd).dedup

/-- `expandTree`: the order of the map does not matter, for no two keys compare as equal. -/
def expandTree (wd : GoString) (cleanedFiles : List GoString) : List GoString :=
  (treePaths wd cleanedFiles).insertionSort fun a b => hierarchicalPathCompare a b ≤ 0

/-- An empty directory on the way to the working directory gets a synthetic file. -/
def addSynthetic (h : Hashing) (wd root : GoString) (dir : Directory) : Directory :=
  if dir = {} ∧ wd ≠ [] ∧ wd ≠ dot ∧
      (root = wd ∨ (root ++ [sep]) <+: wd) then
    { dir with files := [⟨".reninja", h.compute "reninja", false⟩] }
  else
    dir

def syntheticNodes (h : Hashing) (wd root : GoString) (dir : Directory) : List UploadableNode :=
  if addSynthetic h wd root dir = dir then [] else [⟨h.compute "reninja", none, .bytes "reninja"⟩]

variable (h : Hashing) (fs : FileSystem) (p : Project)

/-- What `Lstat` says of a path below the project root. -/
def entryAt (q : GoString) : Option Entry := fs.lstat (join p.root q)

/-- The loop of `computeDirTree` over the paths after `root`: those directly below `root` are
entered into `dir`, and what is below them is visited from where they stand in the list. -/
def collectEntries (root : GoString) : List GoString → Directory → List UploadableNode →
    Except GoString (Directory × List UploadableNode)
  | [], dir, visited => .ok (dir, visited)
  | path :: rest, dir, visited =>
    if Filepath.dir path ≠ root then
      collectEntries root rest dir visited
    else
      match entryAt fs p path with
      | none => .error (notFound (join p.root path))
      | some .dir =>
        match collectEntries path rest {} [] with
        | .error e => .error e
        | .ok (sub, below) =>
          let full := addSynthetic h p.workingDirectory path sub
          collectEntries root rest
            { dir with directories := dir.directories ++ [⟨base path, h.directory full⟩] }
            (visited ++ ⟨h.directory full, some full, .directory⟩ :: below ++
              syntheticNodes h p.workingDirectory path sub)
      | some (.regular content executable) =>
        collectEntries root rest
          { dir with
            files := dir.files ++ [⟨base path, h.compute content, executable⟩] }
          (visited ++ [⟨h.compute content, none, .file (join p.root path)⟩])
      | some (.symlink target) =>
        collectEntries root rest
          { dir with symlinks := dir.symlinks ++ [⟨base path, target⟩] } visited
      | some .other => collectEntries root rest dir visited

/-- `computeDirTree`: the nodes that were visited, the directory before its contents, and the
digest of the directory at the head of the list. -/
def computeDirTree (pathsToUpload : List GoString) :
    Except GoString (List UploadableNode × Digest) :=
  let root := pathsToUpload.headD []
  match collectEntries h fs p root pathsToUpload.tail {} [] with
  | .error e => .error e
  | .ok (dir, below) =>
    let full := addSynthetic h p.workingDirectory root dir
    let d := h.directory full
    .ok (⟨d, some full, .directory⟩ :: below ++ syntheticNodes h p.workingDirectory root dir, d)

def hashDirectoryTree (files : List GoString) : Except GoString (Digest × List UploadableNode) :=
  match cleanPaths p files with
  | .error e => .error e
  | .ok cleanedFiles =>
    match computeDirTree h fs p (expandTree p.workingDirectory cleanedFiles) with
    | .error e => .error e
    | .ok (nodes, d) => .ok (d, nodes)

end Reninja
