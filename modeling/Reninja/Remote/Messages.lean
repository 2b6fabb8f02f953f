import Mathlib.Logic.Equiv.List
import Mathlib.Tactic.DeriveEncodable
import Reninja.Graph.Basic

/-!
# Messages of the remote execution API

The messages that the caching runner builds, with the fields it sets, and the digests they are
stored under.
-/

namespace Reninja

abbrev Digest := GoString

instance encodableUInt8 : Encodable UInt8 :=
  Encodable.ofLeftInjection UInt8.toNat (fun n => some (UInt8.ofNat n)) fun a => by simp

structure FileNode where
  name : GoString
  digest : Digest
  isExecutable : Bool
  deriving DecidableEq, Repr, Encodable

structure DirectoryNode where
  name : GoString
  digest : Digest
  deriving DecidableEq, Repr, Encodable

structure SymlinkNode where
  name : GoString
  target : GoString
  deriving DecidableEq, Repr, Encodable

structure Directory where
  files : List FileNode := []
  directories : List DirectoryNode := []
  symlinks : List SymlinkNode := []
  deriving DecidableEq, Repr, Encodable

structure PlatformProperty where
  name : GoString
  value : GoString
  deriving DecidableEq, Repr, Encodable

structure Command where
  arguments : List GoString
  outputPaths : List GoString
  platform : List PlatformProperty
  deriving DecidableEq, Repr, Encodable

structure Action where
  commandDigest : Digest
  inputRootDigest : Digest
  deriving DecidableEq, Repr, Encodable

structure OutputFile where
  path : GoString
  digest : Digest
  isExecutable : Bool
  deriving DecidableEq, Repr

structure ActionResult where
  exitCode : Int := 0
  outputFiles : List OutputFile := []
  stdoutDigest : Option Digest := none
  deriving DecidableEq, Repr

/-- The digest function and the marshalling of messages: both are injective, and an action is
not marshalled to nothing. -/
structure Hashing where
  compute : GoString → Digest
  marshalDirectory : Directory → GoString
  marshalCommand : Command → GoString
  marshalAction : Action → GoString
  compute_injective : Function.Injective compute
  marshalDirectory_injective : Function.Injective marshalDirectory
  marshalCommand_injective : Function.Injective marshalCommand
  marshalAction_injective : Function.Injective marshalAction
  marshalAction_ne_nil : ∀ a, marshalAction a ≠ []

namespace Hashing

variable (h : Hashing)

def directory (d : Directory) : Digest := h.compute (h.marshalDirectory d)

def command (c : Command) : Digest := h.compute (h.marshalCommand c)

/-- `ComputeForMessage` of an action; a nil action is marshalled to nothing. -/
def action (a : Option Action) : Digest := h.compute ((a.map h.marshalAction).getD [])

lemma directory_injective : Function.Injective h.directory :=
  h.compute_injective.comp h.marshalDirectory_injective

lemma command_injective : Function.Injective h.command :=
  h.compute_injective.comp h.marshalCommand_injective

lemma action_injective : Function.Injective h.action := by
  intro a b heq
  have := h.compute_injective heq
  cases a <;> cases b
  · rfl
  · exact absurd this.symm (h.marshalAction_ne_nil _)
  · exact absurd this (h.marshalAction_ne_nil _)
  · exact congrArg some (h.marshalAction_injective this)

def marshalCode {α : Type} [Encodable α] (a : α) : GoString :=
  List.replicate (Encodable.encode a + 1) 0

lemma marshalCode_injective {α : Type} [Encodable α] :
    Function.Injective (marshalCode : α → GoString) := by
  intro a b heq
  have := congrArg List.length heq
  simpa [marshalCode] using this

def byCode : Hashing where
  compute := id
  marshalDirectory := marshalCode
  marshalCommand := marshalCode
  marshalAction := marshalCode
  compute_injective := Function.injective_id
  marshalDirectory_injective := marshalCode_injective
  marshalCommand_injective := marshalCode_injective
  marshalAction_injective := marshalCode_injective
  marshalAction_ne_nil a := by simp [marshalCode]

end Hashing

end Reninja
