import Reninja.IncludeScanner.Command

/-!
# Response files in the compilation database

`EvaluateCommandWithRspfile` of the tool `compdb`. In the expanding mode it is meant to put the
content of the response file in the place of the reference to it. It copies the content over the
bytes of the command, which keeps its length, and a newline in the content is waited for to go away.
-/

namespace Reninja.Compdb

open List

open IncludeScanner (indexSuffix)

inductive EvaluateCommandMode where
  | normal
  | expandRspfile
  deriving DecidableEq, Repr

def index (s sub : GoString) : Int :=
  match indexSuffix sub s with
  | some rest => s.length - rest.length
  | none => -1

def isReference (command : GoString) (i : Int) : Bool :=
  ¬ (i = 0 ∨ i = -1 ∨ (command[(i - 1).toNat]? ≠ some 64 ∧
    index command "--option-file=" ≠ i - 14 ∧ index command "-f " ≠ i - 3))

def referenceStart (command : GoString) (i : Int) : Int :=
  if command[(i - 1).toNat]? = some 64 then i - 1
  else if index command "-f " = i - 3 then i - 3
  else i - 14

/-- The loop over the newlines of the content, which does not change it. -/
def replaceNewlines (content : GoString) : Nat → Int → Except Failure Unit
  | 0, _ => .error .outOfFuel
  | fuel + 1, newlineIndex =>
    if newlineIndex ≠ -1 then replaceNewlines content fuel (index content "\n") else .ok ()

def overwrite (bytes content : GoString) (start : Nat) : GoString :=
  bytes.take start ++ content ++ bytes.drop (start + content.length)

/-- `copy(bytes[lo:hi], content)`, for a slice with this capacity; what is copied behind its length
is not seen. -/
def copySlice (capacity : Nat) (bytes content : GoString) (lo hi : Int) : Except Failure GoString :=
  if 0 ≤ lo ∧ lo ≤ hi ∧ hi ≤ capacity then
    .ok ((overwrite bytes (content.take (hi - lo).toNat) lo.toNat).take bytes.length)
  else .error (.panic "slice bounds out of range")

/-- `EvaluateCommandWithRspfile`, with a bound for its loop. The capacity of a byte slice made of a
string is the choice of the runtime. -/
def evaluateCommandWithRspfile (w : World) (capacity : Nat → Nat) (fuel : Nat) (e : EdgeId)
    (mode : EvaluateCommandMode) : Except Failure GoString :=
  let command := w.evaluateCommand e false
  if mode = .normal then .ok command
  else
    let rspFile := w.getBinding e .rspfile
    if rspFile = [] then .ok command
    else
      let i := index command rspFile
      if isReference command i then do
        let rspfileContent := w.getBinding e .rspfileContent
        replaceNewlines rspfileContent fuel (index rspfileContent "\n")
        copySlice (capacity command.length) command rspfileContent (referenceStart command i)
          (i + rspfileContent.length)
      else .ok command

/-- With enough rounds of its loop, the function returns this command. -/
def Returns (w : World) (capacity : Nat → Nat) (e : EdgeId) (mode : EvaluateCommandMode)
    (result : GoString) : Prop :=
  ∃ n, ∀ fuel ≥ n, evaluateCommandWithRspfile w capacity fuel e mode = .ok result

def onOneLine (content : GoString) : GoString := content.map fun c => if c = 10 then 32 else c

variable {content command : GoString}

lemma indexSuffix_suffix {sub s rest : GoString} (h : indexSuffix sub s = some rest) :
    rest <:+ s := by
  induction s with
  | nil =>
    rw [indexSuffix] at h
    split_ifs at h
    rw [← Option.some.inj h]
  | cons c s ih =>
    rw [indexSuffix] at h
    split_ifs at h
    · rw [← Option.some.inj h]
    · exact (ih h).trans (suffix_cons c s)

lemma index_le {sub s rest : GoString} (h : indexSuffix sub s = some rest) :
    rest.length ≤ s.length := (indexSuffix_suffix h).length_le

lemma index_newline : index content "\n" = -1 ↔ 10 ∉ content := by
  have hnewline : ("\n" : GoString) = [10] := by decide +kernel
  have hnone : indexSuffix [10] content = none ↔ 10 ∉ content := by
    induction content with
    | nil => simp [indexSuffix]
    | cons c s ih =>
      rw [indexSuffix]
      by_cases hc : c = 10
      · simp [hc]
      · have hpre : ¬ ([10] : GoString).isPrefixOf (c :: s) := by simpa using fun h => hc h.symm
        rw [if_neg hpre, ih, mem_cons, not_or, and_iff_right fun h => hc h.symm]
  rw [index, hnewline, ← hnone]
  cases h : indexSuffix [10] content with
  | none => simp
  | some rest =>
    have hle := index_le h
    simp only [reduceCtorEq, iff_false]
    omega

lemma replaceNewlines_of_notMem (h : 10 ∉ content) (fuel : Nat) :
    replaceNewlines content (fuel + 1) (index content "\n") = .ok () := by
  rw [replaceNewlines, index_newline.mpr h]
  rfl

lemma replaceNewlines_of_mem (h : 10 ∈ content) (fuel : Nat) :
    replaceNewlines content fuel (index content "\n") = .error .outOfFuel := by
  have hne : index content "\n" ≠ -1 := fun heq => index_newline.mp heq h
  induction fuel with
  | zero => rfl
  | succ fuel ih => rw [replaceNewlines, if_pos hne, ih]

lemma onOneLine_of_notMem (h : 10 ∉ content) : onOneLine content = content := by
  rw [onOneLine]
  conv_rhs => rw [← map_id content]
  refine map_congr_left fun c hc => if_neg ?_
  rintro rfl
  exact h hc

/-! ### Copying -/

variable {before marker path after : GoString}

lemma index_le_length (s sub : GoString) : index s sub ≤ s.length := by
  rw [index]
  split <;> omega

lemma referenceStart_le (command : GoString) (i : Int) : referenceStart command i ≤ i - 1 := by
  unfold referenceStart
  split_ifs <;> omega

lemma overwrite_reference (hlen : content.length = (marker ++ path).length) :
    overwrite (before ++ marker ++ path ++ after) content before.length =
      before ++ content ++ after := by
  have hdrop : (before ++ marker ++ path ++ after).drop (before.length + content.length) =
      after := by
    rw [hlen, append_assoc before, ← length_append, drop_left]
  have htake : (before ++ marker ++ path ++ after).take before.length = before := by
    rw [append_assoc before, append_assoc before, take_left]
  rw [overwrite, htake, hdrop]

lemma length_take_overwrite {start : Nat} (hstart : start ≤ command.length) :
    ((overwrite command content start).take command.length).length = command.length := by
  simp only [overwrite, length_take, length_append, length_drop]
  omega

lemma copySlice_eq {capacity : Nat} {start i : Int} (hstart : start ≤ i) :
    copySlice capacity command content start (i + content.length) =
      if 0 ≤ start ∧ i + content.length ≤ capacity then
        .ok ((overwrite command content start.toNat).take command.length)
      else .error (.panic "slice bounds out of range") := by
  have hall : content.take (i + content.length - start).toNat = content :=
    take_of_length_le (by omega)
  rw [copySlice, hall]
  refine if_congr ⟨fun h => ⟨h.1, h.2.2⟩, fun h => ⟨h.1, by omega, h.2⟩⟩ rfl rfl

lemma getElem?_overwrite {start : Nat} (hstart : start ≤ command.length) (k : Nat) :
    (overwrite command content start)[k]? =
      if start ≤ k ∧ k < start + content.length then content[k - start]? else command[k]? := by
  rw [overwrite, append_assoc, getElem?_append, getElem?_append, length_take,
    min_eq_left hstart]
  by_cases hk : k < start
  · rw [if_pos hk, if_neg (by omega), getElem?_take_of_lt hk]
  · rw [if_neg hk]
    by_cases hin : k - start < content.length
    · rw [if_pos hin, if_pos (by omega)]
    · rw [if_neg hin, if_neg (by omega), getElem?_drop]
      congr 1
      omega

/-- The command has the content at `here`, as far as it is not also at `there`. -/
def HasAt (command content : GoString) (here there : Nat) : Prop :=
  ∀ k < content.length, here + k < command.length →
    here + k < there ∨ there + content.length ≤ here + k → command[here + k]? = content[k]?

/-- It makes no difference to which of two places the content is copied: where only one of them is
the command has these bytes before, and where they overlap the content repeats itself. -/
def Coincide (command content : GoString) (start place : Nat) : Prop :=
  HasAt command content start place ∧ HasAt command content place start ∧
    ∀ j < content.length, ∀ k < content.length, start + j = place + k → content[j]? = content[k]?

lemma take_overwrite_eq_iff {start place : Nat} (hstart : start ≤ command.length)
    (hplace : place + content.length ≤ command.length) :
    (overwrite command content start).take command.length = overwrite command content place ↔
      Coincide command content start place := by
  have hbytes : (overwrite command content start).take command.length =
      overwrite command content place ↔ ∀ k < command.length,
        (overwrite command content start)[k]? = (overwrite command content place)[k]? := by
    have hlength : (overwrite command content place).length = command.length := by
      simp only [overwrite, length_append, length_take, length_drop]
      omega
    constructor
    · intro heq k hk
      rw [← heq, getElem?_take_of_lt hk]
    · intro h
      refine ext_getElem? fun k => ?_
      by_cases hk : k < command.length
      · rw [getElem?_take_of_lt hk, h k hk]
      · rw [getElem?_take_eq_none (by omega), getElem?_eq_none (by omega)]
  have hplace' : place ≤ command.length := (Nat.le_add_right ..).trans hplace
  simp only [hbytes, getElem?_overwrite hstart, getElem?_overwrite hplace']
  constructor
  · intro h
    refine ⟨fun k hk hlt hout => ?_, fun k hk hlt hout => ?_, fun j hj k hk heq => ?_⟩
    · have hk' := h (start + k) hlt
      rw [if_pos (by omega), if_neg (by omega), Nat.add_sub_cancel_left] at hk'
      exact hk'.symm
    · have hk' := h (place + k) hlt
      rwa [if_neg (by omega), if_pos (by omega), Nat.add_sub_cancel_left] at hk'
    · have hk' := h (start + j) (by omega)
      rwa [if_pos (by omega), if_pos (by omega), Nat.add_sub_cancel_left, heq,
        Nat.add_sub_cancel_left] at hk'
  · rintro ⟨hat, hat', hrepeats⟩ k hk
    by_cases h₁ : start ≤ k ∧ k < start + content.length
    · rw [if_pos h₁]
      by_cases h₂ : place ≤ k ∧ k < place + content.length
      · rw [if_pos h₂]
        exact hrepeats _ (by omega) _ (by omega) (by omega)
      · rw [if_neg h₂, ← hat (k - start) (by omega) (by omega) (by omega)]
        congr 1
        omega
    · rw [if_neg h₁]
      by_cases h₂ : place ≤ k ∧ k < place + content.length
      · rw [if_pos h₂, ← hat' (k - place) (by omega) (by omega) (by omega)]
        congr 1
        omega
      · rw [if_neg h₂]

/-- When the reference to the response file is replaced by its content. Where the test for a
reference fails at the first place of the path, the command stays as it is. Otherwise the content
must have no newline and the length of the reference, the bytes up to a marker's length behind it
must be within the capacity, and the reference must be where the content is copied to, or the bytes
of command and content such that this makes no difference. -/
def Expands (capacity : Nat) (command path content before marker : GoString) : Prop :=
  if isReference command (index command path) then
    10 ∉ content ∧ content.length = (marker ++ path).length ∧
      0 ≤ referenceStart command (index command path) ∧
      index command path + content.length ≤ capacity ∧
      Coincide command content (referenceStart command (index command path)).toNat before.length
  else onOneLine content = marker ++ path

/-- In the expanding mode the command comes back with a reference to the response file replaced by
its content, on one line, exactly if this is so. -/
theorem evaluateCommandWithRspfile_iff (w : World) (capacity : Nat → Nat) (e : EdgeId)
    (before marker after : GoString) (hpath : w.getBinding e .rspfile ≠ [])
    (hcommand : w.evaluateCommand e false = before ++ marker ++ w.getBinding e .rspfile ++ after) :
    Returns w capacity e .expandRspfile
        (before ++ onOneLine (w.getBinding e .rspfileContent) ++ after) ↔
      Expands (capacity (w.evaluateCommand e false).length) (w.evaluateCommand e false)
        (w.getBinding e .rspfile) (w.getBinding e .rspfileContent) before marker := by
  simp only [Returns, evaluateCommandWithRspfile, Expands, if_neg hpath, reduceCtorEq, if_false]
  generalize w.evaluateCommand e false = command at hcommand ⊢
  generalize w.getBinding e .rspfileContent = content
  generalize w.getBinding e .rspfile = path at hpath hcommand ⊢
  split_ifs with href
  · have hstart := referenceStart_le command (index command path)
    have hindex := index_le_length command path
    generalize referenceStart command (index command path) = start at hstart ⊢
    by_cases hnewline : 10 ∈ content
    · refine iff_of_false ?_ fun h => h.1 hnewline
      rintro ⟨n, hn⟩
      simpa [replaceNewlines_of_mem hnewline, bind, Except.bind] using hn n le_rfl
    · have hloop : (∃ n, ∀ fuel ≥ n, (do
            replaceNewlines content fuel (index content "\n")
            copySlice (capacity command.length) command content start
              (index command path + content.length)) =
              Except.ok (before ++ onOneLine content ++ after)) ↔
          copySlice (capacity command.length) command content start
            (index command path + content.length) = .ok (before ++ content ++ after) := by
        rw [onOneLine_of_notMem hnewline]
        constructor
        · rintro ⟨n, hn⟩
          have := hn (n + 1) (Nat.le_succ n)
          rwa [replaceNewlines_of_notMem hnewline] at this
        · intro h
          refine ⟨1, fun fuel hfuel => ?_⟩
          obtain ⟨fuel, rfl⟩ := Nat.exists_eq_add_of_le' hfuel
          rw [replaceNewlines_of_notMem hnewline]
          exact h
      rw [hloop, copySlice_eq (by omega)]
      by_cases hbounds : 0 ≤ start ∧ index command path + content.length ≤ capacity command.length
      · rw [if_pos hbounds, Except.ok.injEq]
        have htake : ((overwrite command content start.toNat).take command.length).length =
            command.length := length_take_overwrite (by omega)
        have hlength : command.length =
            before.length + (marker ++ path).length + after.length := by
          rw [hcommand]
          simp only [length_append]
          omega
        -- copying to the reference itself would give the result
        have hresult (hlen : content.length = (marker ++ path).length) :
            (overwrite command content start.toNat).take command.length =
              before ++ content ++ after ↔ Coincide command content start.toNat before.length := by
          rw [← overwrite_reference hlen, ← hcommand]
          exact take_overwrite_eq_iff (by omega) (by omega)
        constructor
        · intro heq
          have hlen : content.length = (marker ++ path).length := by
            have := congrArg length heq
            rw [htake, length_append, length_append] at this
            omega
          exact ⟨hnewline, hlen, hbounds.1, hbounds.2, (hresult hlen).mp heq⟩
        · rintro ⟨-, hlen, -, -, hsame⟩
          exact (hresult hlen).mpr hsame
      · rw [if_neg hbounds]
        exact iff_of_false (by simp) fun h => hbounds ⟨h.2.2.1, h.2.2.2.1⟩
  · constructor
    · rintro ⟨n, hn⟩
      have heq := hcommand.symm.trans (Except.ok.inj (hn n le_rfl))
      rw [append_assoc before] at heq
      exact (append_cancel_left (append_cancel_right heq)).symm
    · intro heq
      refine ⟨0, fun _ _ => ?_⟩
      rw [hcommand, heq]
      simp only [append_assoc]

def rspfileWorld (command content : GoString) : World where
  edges _ :=
    { rule := fun
        | .command => some command
        | .rspfile        => some "a.rsp"
        | .rspfileContent => some content
        | _ => none }

/-- The theorem for a reference in the middle of the command and a content of its length. -/
theorem evaluateCommandWithRspfile_iff_sameLength :
    Returns (rspfileWorld "cc @a.rsp -o x" "a.c b.") (fun _ => 32) 0 .expandRspfile
      "cc a.c b. -o x" := by
  have hexpands : Expands 32 "cc @a.rsp -o x" "a.rsp" "a.c b." "cc " "@" := by
    unfold Expands Coincide HasAt
    decide +kernel
  have hresult : "cc a.c b. -o x" = "cc " ++ onOneLine "a.c b." ++ " -o x" := by
    decide +kernel
  rw [hresult]
  exact (evaluateCommandWithRspfile_iff (rspfileWorld "cc @a.rsp -o x" "a.c b.") (fun _ => 32) 0
    "cc " "@" " -o x" (by decide +kernel) (by decide +kernel)).mpr hexpands

/-- A newline in the content is waited for forever; a shorter content leaves the end of the
reference behind it, a longer one overwrites what follows, and at the end of the command it is cut
off or the copy panics. -/
theorem rspfileContent_not_expanded :
    (∀ fuel, evaluateCommandWithRspfile (rspfileWorld "cc @a.rsp" "x\ny") id fuel 0 .expandRspfile =
      .error .outOfFuel) ∧
    evaluateCommandWithRspfile (rspfileWorld "cc @a.rsp -c" "x") id 1 0 .expandRspfile =
      .ok "cc xa.rsp -c" ∧
    evaluateCommandWithRspfile (rspfileWorld "cc @a.rsp" "a.c b.c") (fun _ => 32) 1 0
      .expandRspfile = .ok "cc a.c b." ∧
    evaluateCommandWithRspfile (rspfileWorld "cc @a.rsp" "a.c b.c") id 1 0 .expandRspfile =
      .error (.panic "slice bounds out of range") := by
  refine ⟨fun fuel => ?_, by decide +kernel, by decide +kernel, by decide +kernel⟩
  have hmem : (10 : UInt8) ∈ (rspfileWorld "cc @a.rsp" "x\ny").getBinding 0 .rspfileContent := by
    decide +kernel
  have hpath : (rspfileWorld "cc @a.rsp" "x\ny").getBinding 0 .rspfile ≠ [] := by decide +kernel
  have href : isReference ((rspfileWorld "cc @a.rsp" "x\ny").evaluateCommand 0 false)
      (index ((rspfileWorld "cc @a.rsp" "x\ny").evaluateCommand 0 false)
        ((rspfileWorld "cc @a.rsp" "x\ny").getBinding 0 .rspfile)) = true := by decide +kernel
  simp only [evaluateCommandWithRspfile, if_neg hpath, reduceCtorEq, if_false, if_pos href,
    replaceNewlines_of_mem hmem]
  rfl

end Reninja.Compdb
