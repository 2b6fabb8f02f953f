import Reninja.BuildLog.Basic
import Reninja.Filetransfer.Path

/-!
# Paths in commands

The functions of `internal/include_scanner` that look for paths in the text of a command. The
working directory and `shlex.Split`, which is not part of the repository, are arguments.
-/

namespace Reninja.IncludeScanner

open Filepath BuildLog

/-- `strings.Fields`: what has been read of a field, and how many bytes of a space are to be
skipped. -/
def fieldsFrom : Nat → GoString → GoString → List GoString
  | _, field, [] => if field = [] then [] else [field]
  | skip + 1, field, _ :: s => fieldsFrom skip field s
  | 0, field, c :: s =>
    match spaces.find? (·.isPrefixOf (c :: s)) with
    | none => fieldsFrom 0 (field ++ [c]) s
    | some sp => (if field = [] then [] else [field]) ++ fieldsFrom (sp.length - 1) [] s

def fields (s : GoString) : List GoString := fieldsFrom 0 [] s

/-- What follows from the index that `strings.Index` finds. -/
def indexSuffix (sub : GoString) : GoString → Option GoString
  | [] => if sub = [] then some [] else none
  | c :: s => if sub.isPrefixOf (c :: s) then some (c :: s) else indexSuffix sub s

def contains (s sub : GoString) : Bool := (indexSuffix sub s).isSome

/-- `strings.TrimRight`, for a cutset of bytes below 128. -/
def trimRight (cutset s : GoString) : GoString := (s.reverse.dropWhile (· ∈ cutset)).reverse

def dedup (l : List GoString) : List GoString :=
  l.foldl (fun seen p => if p ∈ seen then seen else seen ++ [p]) []

def abs (wd path : GoString) : GoString := if isAbs path then clean path else join wd path

def underRoot (root path : GoString) : Bool :=
  (root ++ [sep]).isPrefixOf path || decide (path = root)

def searchFlags : List GoString := ["-I", "-iquote", "-isystem", "-L", "-F"]

/-- The first flag that an argument is, or starts with; then with what follows it. -/
def searchFlag (arg : GoString) : Option (Option GoString) :=
  searchFlags.findSome? fun flag =>
    if arg = flag then some none
    else if flag.isPrefixOf arg then some (some (arg.drop flag.length))
    else none

def extractSearchPaths : List GoString → List GoString
  | [] => []
  | arg :: args =>
    match searchFlag arg, args with
    | none, args => extractSearchPaths args
    | some (some path), args => path :: extractSearchPaths args
    | some none, path :: args => path :: extractSearchPaths args
    | some none, [] => []

section Candidates

variable (shlexSplit : GoString → Option (List GoString)) (wd command root : GoString)

/-- The candidate in a field of the command: what follows from the root on, without quotes at the
end. -/
def rootedPart (token : GoString) : Option GoString :=
  (indexSuffix root token).map (trimRight "\"'")

def extractCommandCandidatePaths : List GoString :=
  dedup ((fields command).filterMap (rootedPart root))

def extractSearchDirectoryCandidates : List GoString :=
  match shlexSplit command with
  | none => []
  | some args => dedup ((extractSearchPaths args).filterMap fun dir =>
    let dir := if isAbs dir then dir else abs wd dir
    if underRoot root dir then some dir else none)

/-- What follows a flag in a field of the command. -/
def stripFlag (token : GoString) : GoString :=
  let flags : List GoString := ["-I", "-L"]
  (flags.findSome? fun flag =>
    if flag.isPrefixOf token ∧ flag.length < token.length then some (token.drop flag.length)
    else none).getD token

def extractRelativeDotDotCandidates : List GoString :=
  dedup ((fields command).filterMap fun token =>
    if isAbs token ∨ ¬ contains token dotDot then none
    else
      let path := trimRight ";&|\"'" (stripFlag token)
      if ¬ contains path dotDot then none
      else if underRoot root (abs wd path) then some (abs wd path)
      else none)

/-- The directory that the first `cd` of the command changes to. -/
def cdTarget : List GoString → GoString
  | a :: b :: rest => if a = "cd" then trimRight ";&|" b else cdTarget (b :: rest)
  | _ => []

def isOperator (token : GoString) : Bool :=
  token ∈ (["&&", "||", "|", ";", "cd"] : List GoString)

def extractCdRelativeCandidates : List GoString :=
  match shlexSplit command with
  | none => []
  | some args =>
    let target := cdTarget args
    if target = [] ∨ ¬ isAbs target then []
    else if ¬ underRoot root target then []
    else dedup (args.filterMap fun token =>
      if isAbs token then none
      else if ("-" : GoString).isPrefixOf token then none
      else if isOperator token then none
      else
        let resolved := clean (join target (trimRight ";&|" token))
        if underRoot root resolved then some resolved else none)

end Candidates

end Reninja.IncludeScanner
