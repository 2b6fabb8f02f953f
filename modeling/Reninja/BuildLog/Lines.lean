import Reninja.BuildLog.Basic

/-!
# The lines of a build log

The loop of `Load` puts the pieces of a line together again, two readings at a time, so that it
takes the lines of a text one after another. What follows the last line end is taken as a line
too, unless the pieces end with the text.
-/

namespace Reninja.BuildLog

open LineReader List

variable {st : Loading} {tail : GoString}
variable {text data text' data' rest buf : GoString}

lemma one_lt_bufferSize : 1 < bufferSize := by decide

lemma loadLoop_fuel {n m : Nat} {text buf : GoString} {st : Loading} (hn : text.length < n)
    (hm : text.length < m) : loadLoop n text buf st = loadLoop m text buf st := by
  induction n generalizing m text buf st with
  | zero => exact absurd hn (Nat.not_lt_zero _)
  | succ n ih =>
    obtain ⟨m, rfl⟩ : ∃ k, m = k + 1 := ⟨m - 1, by omega⟩
    have hrest : ∀ {data rest : GoString} {more : Bool} {text' : GoString},
        readLine bufferSize text' = some (data, more, rest) → text'.length ≤ text.length →
        rest.length < n ∧ rest.length < m := by
      intro data rest more text' hread hle
      have hlt := readLine_shorter one_lt_bufferSize hread
      omega
    simp only [loadLoop]
    cases hread : readLine bufferSize text with
    | none => rfl
    | some r =>
      obtain ⟨data, more, rest⟩ := r
      have hr := hrest hread (Nat.le_refl _)
      cases more with
      | false =>
        simp only
        cases st.takeLine (buf ++ data) with
        | error e => rfl
        | ok st' => exact ih hr.1 hr.2
      | true =>
        simp only
        cases hread' : readLine bufferSize rest with
        | none => rfl
        | some r' =>
          obtain ⟨data', more', rest'⟩ := r'
          have hr' := hrest hread' (Nat.le_of_lt (readLine_shorter one_lt_bufferSize hread))
          cases more' with
          | true => exact ih hr'.1 hr'.2
          | false =>
            simp only
            cases st.takeLine (buf ++ data ++ data') with
            | error e => rfl
            | ok st' => exact ih hr'.1 hr'.2

def loadText (text buf : GoString) (st : Loading) : Except LoadError Loading :=
  loadLoop (text.length + 1) text buf st

lemma loadText_eof (buf : GoString) (st : Loading) : loadText [] buf st = .ok st := by
  simp only [loadText, loadLoop, readLine_nil (show 0 < bufferSize by decide)]

lemma loadText_last {text data rest buf : GoString}
    (h : readLine bufferSize text = some (data, false, rest)) :
    loadText text buf st = (st.takeLine (buf ++ data)).bind (loadText rest []) := by
  have hlt := readLine_shorter one_lt_bufferSize h
  simp only [loadText, loadLoop, h]
  cases st.takeLine (buf ++ data) with
  | error e => rfl
  | ok st' => exact loadLoop_fuel hlt (Nat.lt_succ_self _)

lemma loadText_piece_eof {text data buf : GoString}
    (h : readLine bufferSize text = some (data, true, [])) :
    loadText text buf st = .error .eof := by
  simp only [loadText, loadLoop, h, readLine_nil (show 0 < bufferSize by decide)]

lemma loadText_piece_last (h : readLine bufferSize text = some (data, true, text'))
    (h' : readLine bufferSize text' = some (data', false, rest)) :
    loadText text buf st = (st.takeLine (buf ++ data ++ data')).bind (loadText rest []) := by
  have hlt := Nat.lt_trans (readLine_shorter one_lt_bufferSize h')
    (readLine_shorter one_lt_bufferSize h)
  simp only [loadText, loadLoop, h, h']
  cases st.takeLine (buf ++ data ++ data') with
  | error e => rfl
  | ok st' => exact loadLoop_fuel hlt (Nat.lt_succ_self _)

lemma loadText_piece_piece (h : readLine bufferSize text = some (data, true, text'))
    (h' : readLine bufferSize text' = some (data', true, rest)) :
    loadText text buf st = loadText rest (buf ++ data ++ data') st := by
  have hlt := Nat.lt_trans (readLine_shorter one_lt_bufferSize h')
    (readLine_shorter one_lt_bufferSize h)
  simp only [loadText, loadLoop, h, h']
  exact loadLoop_fuel hlt (Nat.lt_succ_self _)

/-- However many pieces a line comes in, the loop takes it whole and goes on behind it. -/
lemma loadText_line {line : GoString} (hline : newline ∉ line) (rest buf : GoString)
    (st : Loading) :
    loadText (line ++ newline :: rest) buf st =
      (st.takeLine (buf ++ dropCarriageReturn line)).bind (loadText rest []) := by
  -- Two pieces go in one round, so the induction is on the length of the line.
  induction hn : line.length using Nat.strongRecOn generalizing line buf with
  | ind n ih =>
    subst hn
    rcases Nat.lt_or_ge line.length bufferSize with hshort | hlong
    · exact loadText_last (readLine_short hline hshort rest)
    obtain ⟨piece, line₁, rfl, hne, hcr, hread⟩ :=
      readLine_long one_lt_bufferSize hline hlong rest
    have hline₁ : newline ∉ line₁ := fun hmem => hline (mem_append_right _ hmem)
    rw [← hcr]
    rcases Nat.lt_or_ge line₁.length bufferSize with hshort | hlong₁
    · rw [loadText_piece_last hread (readLine_short hline₁ hshort rest), append_assoc]
    obtain ⟨piece₁, line₂, rfl, -, hcr₁, hread₁⟩ :=
      readLine_long one_lt_bufferSize hline₁ hlong₁ rest
    have hline₂ : newline ∉ line₂ := fun hmem => hline₁ (mem_append_right _ hmem)
    have hshorter : line₂.length < (piece ++ (piece₁ ++ line₂)).length := by
      have := length_pos_iff.mpr hne
      simp only [length_append]
      omega
    rw [loadText_piece_piece hread hread₁, ih _ hshorter hline₂ _ rfl, ← hcr₁]
    simp only [append_assoc]

/-- What becomes of a text without a newline at the end of the file. -/
def takeTail (tail buf : GoString) (st : Loading) : Except LoadError Loading :=
  let (n, rest) := pieces bufferSize tail.length tail
  if rest ≠ [] then st.takeLine (buf ++ tail)
  else if n % 2 = 0 then .ok st
  else .error .eof

lemma readLine_tail (htail : newline ∉ tail) (hlen : bufferSize ≤ tail.length) :
    readLine bufferSize tail = some (tail.take (pieceLength bufferSize tail), true,
      tail.drop (pieceLength bufferSize tail)) :=
  readLine_full (fun hmem => htail (mem_of_mem_take hmem)) hlen

lemma loadText_tail (htail : newline ∉ tail) (buf : GoString) (st : Loading) :
    loadText tail buf st = takeTail tail buf st := by
  induction hn : tail.length using Nat.strongRecOn generalizing tail buf with
  | ind n ih =>
    subst hn
    rcases Nat.lt_or_ge tail.length bufferSize with hshort | hlong
    · rw [takeTail, pieces_short hshort]
      by_cases hne : tail = []
      · simp [hne, loadText_eof]
      · simp only [if_pos hne, loadText_last (readLine_last htail hshort hne)]
        cases st.takeLine (buf ++ tail) with
        | error e => rfl
        | ok st' => exact loadText_eof _ _
    have hread := readLine_tail htail hlong
    have hsplit := take_append_drop (pieceLength bufferSize tail) tail
    have hlt₁ := readLine_shorter one_lt_bufferSize hread
    rw [takeTail, pieces_full one_lt_bufferSize hlong]
    generalize tail.take (pieceLength bufferSize tail) = piece₁ at *
    generalize tail.drop (pieceLength bufferSize tail) = tail₁ at *
    subst hsplit
    have htail₁ : newline ∉ tail₁ := fun hmem => htail (mem_append_right _ hmem)
    rcases Nat.lt_or_ge tail₁.length bufferSize with hshort | hlong₁
    · rw [pieces_short hshort]
      by_cases hne : tail₁ = []
      · subst hne
        rw [loadText_piece_eof hread]
        simp
      · simp only [if_pos hne, loadText_piece_last hread (readLine_last htail₁ hshort hne),
          append_assoc]
        cases st.takeLine (buf ++ (piece₁ ++ tail₁)) with
        | error e => rfl
        | ok st' => exact loadText_eof _ _
    have hread₁ := readLine_tail htail₁ hlong₁
    have hsplit := take_append_drop (pieceLength bufferSize tail₁) tail₁
    have hlt₂ := readLine_shorter one_lt_bufferSize hread₁
    rw [pieces_full one_lt_bufferSize hlong₁, loadText_piece_piece hread hread₁]
    generalize tail₁.take (pieceLength bufferSize tail₁) = piece₂ at *
    generalize tail₁.drop (pieceLength bufferSize tail₁) = tail₂ at *
    subst hsplit
    have htail₂ : newline ∉ tail₂ := fun hmem => htail₁ (mem_append_right _ hmem)
    rw [ih _ (Nat.lt_trans hlt₂ hlt₁) htail₂ _ rfl, takeTail]
    simp only [append_assoc, Nat.add_mod_right, Nat.add_assoc]

def Loading.takeLines (st : Loading) (lines : List GoString) : Except LoadError Loading :=
  lines.foldlM (fun st line => st.takeLine (dropCarriageReturn line)) st

lemma loadText_lines {lines : List GoString} (hlines : ∀ line ∈ lines, newline ∉ line)
    (htail : newline ∉ tail) (st : Loading) :
    loadText (lines.flatMap (· ++ [newline]) ++ tail) [] st =
      (st.takeLines lines).bind (takeTail tail []) := by
  induction lines generalizing st with
  | nil => exact loadText_tail htail [] st
  | cons line lines ih =>
    obtain ⟨hline, hlines⟩ := forall_mem_cons.mp hlines
    rw [flatMap_cons, append_assoc, append_assoc, singleton_append,
      loadText_line hline, nil_append, Loading.takeLines, foldlM_cons]
    cases htake : st.takeLine (dropCarriageReturn line) with
    | error e => rfl
    | ok st' => exact ih hlines st'

end Reninja.BuildLog
