import Reninja.Cache.Action
import Reninja.Filetransfer.Faithful

/-!
# What the key of an action identifies

The key sees the words of the command, the outputs and the input files. It does not see how
the words were written, nor the content of the response file.
-/

namespace Reninja

section Key

variable {c : CacheConfig} {fs fs₁ fs₂ : FileSystem} {w w₁ w₂ : World} {e e₁ e₂ : EdgeId}
  {a a₁ a₂ : Action} {cmd : Command} {inputs files files₁ files₂ : List GoString}

lemma assembleCommand_ok :
    assembleCommand c w e = .ok cmd ↔ ∃ words,
      c.splitCommand (w.evaluateCommand e false) = .ok words ∧
      cmd = commandMessage c words (w.edges e).outputs := by
  unfold assembleCommand
  cases c.splitCommand (w.evaluateCommand e false) with
  | error err => simp
  | ok words => simp [eq_comm]

lemma assembleAction_ok :
    assembleAction c fs cmd inputs = .ok a ↔ ∃ files root nodes,
      existingInputs c fs inputs = .ok files ∧
      hashDirectoryTree c.hash fs c.project files = .ok (root, nodes) ∧
      a = { commandDigest := c.hash.command cmd, inputRootDigest := root } := by
  unfold assembleAction
  cases hex : existingInputs c fs inputs with
  | error err => simp
  | ok files =>
    cases hhash : hashDirectoryTree c.hash fs c.project files with
    | error err => simp [hhash]
    | ok r =>
      obtain ⟨digest, nodes⟩ := r
      simp [hhash, eq_comm]

lemma assembleAndHashAction_ok :
    assembleAndHashAction c fs w e = .ok a ↔ ∃ cmd, assembleCommand c w e = .ok cmd ∧
      assembleAction c fs cmd (extractPaths (w.edges e).nonOrderOnlyInputs) = .ok a := by
  unfold assembleAndHashAction
  cases assembleCommand c w e with
  | error err => simp
  | ok cmd => simp

def AgreeOn (p : Project) (fs₁ fs₂ : FileSystem) (files : List GoString) : Prop :=
  ∀ cleaned, cleanPaths p files = .ok cleaned →
    ∀ q ∈ expandTree p.workingDirectory cleaned, entryAt fs₁ p q = entryAt fs₂ p q

lemma cleanPaths_mem {p : Project} {cleaned : List GoString}
    (hc : cleanPaths p files = .ok cleaned) (r : GoString) :
    r ∈ cleaned ↔ ∃ f ∈ files, cleanPath p f = .ok r := by
  induction files generalizing cleaned with
  | nil =>
    obtain rfl : [] = cleaned := by simpa [cleanPaths, pure, Except.pure] using hc
    simp
  | cons f files ih =>
    rw [cleanPaths, List.mapM_cons] at hc
    cases hf : cleanPath p f with
    | error err => simp [hf, bind, Except.bind] at hc
    | ok s =>
      cases hrest : cleanPaths p files with
      | error err =>
        rw [cleanPaths] at hrest
        simp [hf, hrest, bind, Except.bind] at hc
      | ok rest =>
        have hrest' := hrest
        rw [cleanPaths] at hrest'
        obtain rfl : s :: rest = cleaned := by
          simpa [hf, hrest', bind, Except.bind, pure, Except.pure] using hc
        simp only [List.mem_cons, ih hrest, exists_eq_or_imp, hf, Except.ok.injEq]
        exact or_congr_left eq_comm

lemma hashDirectoryTree_congr {h : Hashing} {p : Project} {d₁ d₂ : Digest}
    {nodes₁ nodes₂ : List UploadableNode} (hsame : ∀ f, f ∈ files₁ ↔ f ∈ files₂)
    (hagree : AgreeOn p fs₁ fs₂ files₁)
    (hhash₁ : hashDirectoryTree h fs₁ p files₁ = .ok (d₁, nodes₁))
    (hhash₂ : hashDirectoryTree h fs₂ p files₂ = .ok (d₂, nodes₂)) : d₁ = d₂ := by
  unfold hashDirectoryTree at hhash₁ hhash₂
  cases hc₁ : cleanPaths p files₁ with
  | error err => simp [hc₁] at hhash₁
  | ok cleaned₁ =>
    cases hc₂ : cleanPaths p files₂ with
    | error err => simp [hc₂] at hhash₂
    | ok cleaned₂ =>
      have hmem : ∀ r, r ∈ cleaned₁ ↔ r ∈ cleaned₂ := by
        intro r
        simp only [cleanPaths_mem hc₁, cleanPaths_mem hc₂, hsame]
      have htree : computeDirTree h fs₁ p (expandTree p.workingDirectory cleaned₁) =
          computeDirTree h fs₂ p (expandTree p.workingDirectory cleaned₂) := by
        rw [← expandTree_congr hmem, computeDirTree, computeDirTree,
          collectEntries_congr fun q hq => hagree cleaned₁ hc₁ q (List.mem_of_mem_tail hq)]
      rw [hc₁] at hhash₁
      rw [hc₂] at hhash₂
      simp only [htree] at hhash₁
      simp only [hhash₁, Except.ok.injEq, Prod.mk.injEq] at hhash₂
      exact hhash₂.1

/-- For two edges with the same outputs and the same existing input files, equal actions mean
equal commands if and only if equal words do. -/
theorem action_eq_imp_command_eq_iff
    (houtputs : (w₁.edges e₁).outputs = (w₂.edges e₂).outputs)
    (hfiles₁ : existingInputs c fs₁ (extractPaths (w₁.edges e₁).nonOrderOnlyInputs) = .ok files₁)
    (hfiles₂ : existingInputs c fs₂ (extractPaths (w₂.edges e₂).nonOrderOnlyInputs) = .ok files₂)
    (hsame : ∀ f, f ∈ files₁ ↔ f ∈ files₂) (hagree : AgreeOn c.project fs₁ fs₂ files₁)
    (ha₁ : assembleAndHashAction c fs₁ w₁ e₁ = .ok a₁)
    (ha₂ : assembleAndHashAction c fs₂ w₂ e₂ = .ok a₂) :
    (a₁ = a₂ → w₁.evaluateCommand e₁ true = w₂.evaluateCommand e₂ true) ↔
      (c.splitCommand (w₁.evaluateCommand e₁ false) =
          c.splitCommand (w₂.evaluateCommand e₂ false) →
        w₁.evaluateCommand e₁ true = w₂.evaluateCommand e₂ true) := by
  obtain ⟨cmd₁, hcmd₁, ha₁⟩ := assembleAndHashAction_ok.mp ha₁
  obtain ⟨cmd₂, hcmd₂, ha₂⟩ := assembleAndHashAction_ok.mp ha₂
  obtain ⟨words₁, hwords₁, rfl⟩ := assembleCommand_ok.mp hcmd₁
  obtain ⟨words₂, hwords₂, rfl⟩ := assembleCommand_ok.mp hcmd₂
  obtain ⟨_, root₁, nodes₁, hex₁, hhash₁, rfl⟩ := assembleAction_ok.mp ha₁
  obtain ⟨_, root₂, nodes₂, hex₂, hhash₂, rfl⟩ := assembleAction_ok.mp ha₂
  obtain rfl : files₁ = _ := by simpa [hfiles₁] using hex₁
  obtain rfl : files₂ = _ := by simpa [hfiles₂] using hex₂
  have hroot : root₁ = root₂ := hashDirectoryTree_congr hsame hagree hhash₁ hhash₂
  -- the actions are equal exactly when the words are
  have hkey : c.hash.command (commandMessage c words₁ (w₁.edges e₁).outputs) =
      c.hash.command (commandMessage c words₂ (w₂.edges e₂).outputs) ↔ words₁ = words₂ := by
    rw [houtputs, c.hash.command_injective.eq_iff]
    simp [commandMessage]
  rw [hwords₁, hwords₂, Except.ok.injEq, Action.mk.injEq, hkey]
  simp only [hroot, and_true]

/-- Word splitting for texts without quotes, escapes and comments. -/
def splitAtSpaces (text : GoString) : Except GoString (List GoString) :=
  .ok ((text.splitOn 32).filter (· ≠ []))

def sampleConfig : CacheConfig where
  hash := .byCode
  project := sampleProject
  splitCommand := splitAtSpaces

def sampleWorld (command content : GoString) : World where
  edges _ :=
    { rule := fun
        | .command => some command
        | .rspfile        => some "a.rsp"
        | .rspfileContent => some content
        | _ => none
      explicitInputs := ["b.h"]
      outputs := ["o"] }
  edgeCount := 1

lemma sampleWorld_outputs (command content : GoString) :
    ((sampleWorld command content).edges 0).outputs = ["o"] := rfl

lemma sampleWorld_existingInputs (command content : GoString) :
    existingInputs sampleConfig sampleFiles
      (extractPaths ((sampleWorld command content).edges 0).nonOrderOnlyInputs) = .ok ["b.h"] := by
  change existingInputs sampleConfig sampleFiles (extractPaths ["b.h"]) = .ok ["b.h"]
  decide +kernel

lemma sampleFiles_hash (h : Hashing) : ∃ root nodes,
    hashDirectoryTree h sampleFiles sampleProject ["b.h"] = .ok (root, nodes) := by
  obtain ⟨hnames, hord⟩ := @sampleFiles_names ["b.h"] (by simp)
  obtain ⟨root, nodes, hhash, -⟩ := describes_of_ordinary (h := h) sampleProject_isAbs rfl hnames
    hord
  exact ⟨root, nodes, hhash⟩

lemma sampleWorld_action (command content : GoString) : ∃ root,
    assembleAndHashAction sampleConfig sampleFiles (sampleWorld command content) 0 = .ok {
      commandDigest := sampleConfig.hash.command
        (commandMessage sampleConfig ((command.splitOn 32).filter (· ≠ [])) ["o"])
      inputRootDigest := root } ∧
    ∃ nodes, hashDirectoryTree .byCode sampleFiles sampleProject ["b.h"] = .ok (root, nodes) := by
  obtain ⟨root, nodes, hhash⟩ := sampleFiles_hash .byCode
  refine ⟨root, assembleAndHashAction_ok.mpr ⟨_, assembleCommand_ok.mpr ⟨_, rfl, rfl⟩, ?_⟩,
    nodes, hhash⟩
  exact assembleAction_ok.mpr ⟨_, root, nodes, sampleWorld_existingInputs command content, hhash,
    rfl⟩

/-- Different words give different actions. -/
theorem action_eq_imp_command_eq_sample : ∃ a₁ a₂,
    assembleAndHashAction sampleConfig sampleFiles (sampleWorld "cc -O0" []) 0 = .ok a₁ ∧
    assembleAndHashAction sampleConfig sampleFiles (sampleWorld "cc -O2" []) 0 = .ok a₂ ∧
    (a₁ = a₂ → (sampleWorld "cc -O0" []).evaluateCommand 0 true =
      (sampleWorld "cc -O2" []).evaluateCommand 0 true) := by
  obtain ⟨root₁, ha₁, -⟩ := sampleWorld_action "cc -O0" []
  obtain ⟨root₂, ha₂, -⟩ := sampleWorld_action "cc -O2" []
  refine ⟨_, _, ha₁, ha₂, (action_eq_imp_command_eq_iff
    ((sampleWorld_outputs _ _).trans (sampleWorld_outputs _ _).symm)
    (sampleWorld_existingInputs "cc -O0" []) (sampleWorld_existingInputs "cc -O2" [])
    (fun _ => Iff.rfl) (fun _ _ _ _ => rfl) ha₁ ha₂).mpr ?_⟩
  intro hwords
  exact absurd hwords (by decide +kernel)

/-- The content of the response file is not in the action. -/
theorem action_eq_of_rspfile : ∃ a,
    assembleAndHashAction sampleConfig sampleFiles (sampleWorld "cc @a.rsp" "-O0") 0 = .ok a ∧
    assembleAndHashAction sampleConfig sampleFiles (sampleWorld "cc @a.rsp" "-O2") 0 = .ok a ∧
    (sampleWorld "cc @a.rsp" "-O0").evaluateCommand 0 true ≠
      (sampleWorld "cc @a.rsp" "-O2").evaluateCommand 0 true := by
  obtain ⟨root₁, ha₁, _, hhash₁⟩ := sampleWorld_action "cc @a.rsp" "-O0"
  obtain ⟨root₂, ha₂, _, hhash₂⟩ := sampleWorld_action "cc @a.rsp" "-O2"
  obtain rfl : root₁ = root₂ := by
    rw [hhash₁, Except.ok.injEq, Prod.mk.injEq] at hhash₂
    exact hhash₂.1
  exact ⟨_, ha₁, ha₂, by decide +kernel⟩

end Key

end Reninja
