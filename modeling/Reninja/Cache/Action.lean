import Reninja.Filetransfer.Tree

/-!
# The key of a cached action

`RemoteCachingCommandRunner` looks results up under the digest of an `Action`: the digest of a
`Command` message and the root digest of the input files that exist.
-/

namespace Reninja

/-- What the caching runner is built with. `splitCommand` is the word splitting of the shlex
package. -/
structure CacheConfig where
  hash : Hashing
  project : Project
  splitCommand : GoString → Except GoString (List GoString)
  arch : GoString := "amd64"
  osFamily : GoString := "linux"

namespace World

variable (w : World) (e : EdgeId)

/-- `StaticInputs`: the inputs that the manifest names. -/
def staticInputs : List Path :=
  (w.edges e).nonOrderOnlyInputs.filter fun n => !(w.nodes n).generatedByDepLoader

/-- `DynamicInputs`: the inputs that a dependency loader found. -/
def dynamicInputs : List Path :=
  (w.edges e).implicitInputs.filter fun n => (w.nodes n).generatedByDepLoader

end World

/-- `slices.Compact`: one element for each run of equal ones. -/
def compact : List GoString → List GoString
  | a :: b :: l => if a = b then compact (b :: l) else a :: compact (b :: l)
  | l => l

def stringLE (a b : GoString) : Bool := !List.lex b a

/-- `extractPaths`: sorted and without repetitions. -/
def extractPaths (nodes : List Path) : List GoString :=
  compact (nodes.insertionSort fun a b => stringLE a b)

@[simp] lemma extractPaths_singleton (p : Path) : extractPaths [p] = [p] := by
  simp [extractPaths, compact]

section Assemble

variable (c : CacheConfig) (fs : FileSystem)

def commandMessage (words : List GoString) (outputPaths : List Path) : Command where
  arguments := words
  platform := [⟨"Arch", c.arch⟩, ⟨"OSFamily", c.osFamily⟩]
  outputPaths := outputPaths

def assembleCommand (w : World) (e : EdgeId) : Except GoString Command :=
  match c.splitCommand (w.evaluateCommand e false) with
  | .error err => .error err
  | .ok words => .ok (commandMessage c words (w.edges e).outputs)

/-- The inputs that exist; an error other than that a file is missing is returned. -/
def existingInputs : List GoString → Except GoString (List GoString)
  | [] => .ok []
  | i :: is =>
    match fs.stat (c.project.absolute i) with
    | .error err => .error err
    | .ok false => existingInputs is
    | .ok true =>
      match existingInputs is with
      | .error err => .error err
      | .ok files => .ok (i :: files)

def assembleAction (cmd : Command) (inputs : List GoString) : Except GoString Action :=
  match existingInputs c fs inputs with
  | .error err => .error err
  | .ok files =>
    match hashDirectoryTree c.hash fs c.project files with
    | .error err => .error err
    | .ok (root, _) => .ok { commandDigest := c.hash.command cmd, inputRootDigest := root }

def assembleAndHashAction (w : World) (e : EdgeId) : Except GoString Action :=
  match assembleCommand c w e with
  | .error err => .error err
  | .ok cmd => assembleAction c fs cmd (extractPaths (w.edges e).nonOrderOnlyInputs)

end Assemble

end Reninja
