import Mathlib.Data.List.Basic

/-!
# Reading lines through a buffer

A reader with a buffer of a fixed size hands out a text line by line. A line that does not fit
into the buffer comes in pieces, each marked as one that more of the line follows.
-/

namespace LineReader

open List

def newline : UInt8 := 10

def carriageReturn : UInt8 := 13

/-- A line without the carriage return at its end. -/
def dropCarriageReturn (line : List UInt8) : List UInt8 :=
  if line.getLast? = some carriageReturn then line.dropLast else line

section

variable (size : Nat)

/-- How much of a full buffer is handed out: a carriage return at its end may belong to a line end
and stays behind. -/
def pieceLength (text : List UInt8) : Nat :=
  if (text.take size).getLast? = some carriageReturn then size - 1 else size

/-- A line or a piece of one, whether more of the line follows, and the rest of the text; nothing at
the end of the text. -/
def readLine (text : List UInt8) : Option (List UInt8 × Bool × List UInt8) :=
  match (text.take size).idxOf? newline with
  | some i => some (dropCarriageReturn (text.take i), false, text.drop (i + 1))
  | none =>
    if size ≤ text.length then
      some (text.take (pieceLength size text), true, text.drop (pieceLength size text))
    else if text = [] then none
    else some (text, false, [])

/-- The number of pieces before the rest of a text that has no line end, and the rest. -/
def pieces : Nat → List UInt8 → Nat × List UInt8
  | 0, text => (0, text)
  | fuel + 1, text =>
    if size ≤ text.length then
      let (n, rest) := pieces fuel (text.drop (pieceLength size text))
      (n + 1, rest)
    else (0, text)

end

/-- No part of a text that was cut at a byte has that byte. -/
lemma notMem_of_mem_splitOn {sep : UInt8} (text : List UInt8) {part : List UInt8}
    (h : part ∈ text.splitOn sep) : sep ∉ part := by
  induction text generalizing part with
  | nil => simp_all
  | cons x text ih =>
    rw [splitOn_cons_eq_if_modifyHead] at h
    split at h
    · rcases mem_cons.mp h with rfl | h
      · simp
      · exact ih h
    · rename_i hx
      cases hs : text.splitOn sep with
      | nil => simp [hs] at h
      | cons d ds =>
        rw [hs, modifyHead_cons] at h
        rcases mem_cons.mp h with rfl | h
        · simp only [mem_cons, not_or]
          exact ⟨fun he => hx (by simp [he]), ih (by simp [hs])⟩
        · exact ih (by simp [hs, h])

/-- A text is its lines, each with its newline, and what follows the last of them. -/
lemma splitOn_lines {text : List UInt8} {lines : List (List UInt8)} {tail : List UInt8}
    (h : text.splitOn newline = lines ++ [tail]) :
    text = lines.flatMap (· ++ [newline]) ++ tail := by
  have hjoin : ∀ lines : List (List UInt8),
      [newline].intercalate (lines ++ [tail]) = lines.flatMap (· ++ [newline]) ++ tail := by
    intro lines
    induction lines with
    | nil => simp [intercalate]
    | cons line lines ih =>
      rw [flatMap_cons, append_assoc, ← ih]
      cases lines <;> simp [intercalate]
  rw [← hjoin, ← h, intercalate_splitOn]

lemma exists_lines (text : List UInt8) : ∃ (lines : List (List UInt8)) (tail : List UInt8),
    text.splitOn newline = lines ++ [tail] ∧ (∀ line ∈ lines, newline ∉ line) ∧
      newline ∉ tail ∧ text = lines.flatMap (· ++ [newline]) ++ tail := by
  obtain ⟨lines, tail, hsplit⟩ : ∃ lines tail, text.splitOn newline = lines ++ [tail] :=
    ⟨_, _, (dropLast_append_getLast (splitOn_ne_nil newline text)).symm⟩
  refine ⟨lines, tail, hsplit, fun line hline => ?_, ?_, splitOn_lines hsplit⟩
  · exact notMem_of_mem_splitOn text (by simp [hsplit, hline])
  · exact notMem_of_mem_splitOn text (by simp [hsplit])

/-! ### What is read -/

section

variable {size : Nat} (hsize : 1 < size)
variable {text : List UInt8}

include hsize

lemma pieceLength_pos (text : List UInt8) : 0 < pieceLength size text := by
  unfold pieceLength
  split <;> omega

omit hsize in
lemma pieceLength_le (text : List UInt8) : pieceLength size text ≤ size := by
  unfold pieceLength
  split <;> omega

/-- Every reading takes something off the text. -/
lemma readLine_shorter {text data rest : List UInt8} {more : Bool}
    (h : readLine size text = some (data, more, rest)) : rest.length < text.length := by
  unfold readLine at h
  have hpos := pieceLength_pos hsize text
  cases hi : (text.take size).idxOf? newline with
  | some i =>
    simp only [hi, Option.some.injEq, Prod.mk.injEq] at h
    obtain ⟨-, -, rfl⟩ := h
    have hlt : i < text.length := by
      obtain ⟨hlt, -⟩ := findIdx?_eq_some_iff_getElem.mp hi
      exact Nat.lt_of_lt_of_le hlt (length_take_le' size text)
    rw [length_drop]
    omega
  | none =>
    simp only [hi] at h
    split at h
    next hfull =>
      simp only [Option.some.injEq, Prod.mk.injEq] at h
      obtain ⟨-, -, rfl⟩ := h
      rw [length_drop]
      omega
    next =>
      split at h
      next => cases h
      next hne =>
        simp only [Option.some.injEq, Prod.mk.injEq] at h
        obtain ⟨-, -, rfl⟩ := h
        exact length_pos_iff.mpr hne

omit hsize in
/-- A line that fits into the buffer with its newline is read whole. -/
lemma readLine_short {line : List UInt8} (hline : newline ∉ line) (hlen : line.length < size)
    (rest : List UInt8) :
    readLine size (line ++ newline :: rest) = some (dropCarriageReturn line, false, rest) := by
  have hi : ((line ++ newline :: rest).take size).idxOf? newline = some line.length := by
    obtain ⟨n, hn⟩ : ∃ n, size - line.length = n + 1 := ⟨size - line.length - 1, by omega⟩
    rw [take_append, take_of_length_le (Nat.le_of_lt hlen), hn, take_succ_cons,
      idxOf?, findIdx?_append, findIdx?_eq_none_iff.mpr, findIdx?_cons]
    · simp
    · intro x hx
      simp only [beq_eq_false_iff_ne, ne_eq]
      rintro rfl
      exact hline hx
  simp only [readLine, hi, take_left]
  rw [drop_append, drop_of_length_le (by omega)]
  simp

omit hsize in
/-- With no newline in the buffer, a full buffer is handed out as a piece. -/
lemma readLine_full (hnone : newline ∉ text.take size) (hlen : size ≤ text.length) :
    readLine size text =
      some (text.take (pieceLength size text), true, text.drop (pieceLength size text)) := by
  have hi : (text.take size).idxOf? newline = none := by simpa [idxOf?_eq_none_iff] using hnone
  simp only [readLine, hi, if_pos hlen]

/-- A longer line loses a piece at its front, and the carriage return at its end is treated as if
the line had been read whole. -/
lemma readLine_long {line : List UInt8} (hline : newline ∉ line) (hlen : size ≤ line.length)
    (rest : List UInt8) :
    ∃ piece line', line = piece ++ line' ∧ piece ≠ [] ∧
      piece ++ dropCarriageReturn line' = dropCarriageReturn line ∧
      readLine size (line ++ newline :: rest) = some (piece, true, line' ++ newline :: rest) := by
  have htake : (line ++ newline :: rest).take size = line.take size :=
    take_append_of_le_length hlen
  have hn : pieceLength size (line ++ newline :: rest) = pieceLength size line := by
    simp only [pieceLength, htake]
  have hle : pieceLength size line ≤ size := pieceLength_le line
  have hpos := pieceLength_pos hsize line
  refine ⟨line.take (pieceLength size line), line.drop (pieceLength size line),
    (take_append_drop _ _).symm, ?_, ?_, ?_⟩
  · intro hnil
    have := congrArg length hnil
    simp only [length_take, length_nil] at this
    omega
  · by_cases hd : line.drop (pieceLength size line) = []
    · -- The piece is the whole line, so it did not end in a carriage return.
      have hwhole : line.length ≤ pieceLength size line := drop_eq_nil_iff.mp hd
      have hcr : line.getLast? ≠ some carriageReturn := by
        intro hcr
        have heq : line.take size = line := take_of_length_le (by omega)
        have : pieceLength size line = size - 1 := by simp only [pieceLength, heq, if_pos hcr]
        omega
      rw [hd, take_of_length_le hwhole, dropCarriageReturn, dropCarriageReturn, if_neg hcr]
      simp
    · have hlast : (line.drop (pieceLength size line)).getLast? = line.getLast? := by
        conv_rhs => rw [← take_append_drop (pieceLength size line) line]
        rw [getLast?_append_of_ne_nil _ hd]
      simp only [dropCarriageReturn, hlast]
      split
      next =>
        conv_rhs => rw [← take_append_drop (pieceLength size line) line]
        rw [dropLast_append_of_ne_nil hd]
      next => rw [take_append_drop]
  · have hnone : newline ∉ (line ++ newline :: rest).take size := by
      rw [htake]
      exact fun hmem => hline (mem_of_mem_take hmem)
    rw [readLine_full hnone (by rw [length_append]; omega), hn,
      take_append_of_le_length (by omega), drop_append_of_le_length (by omega)]

omit hsize in
/-- What is left before the end of the text is handed out as a line. -/
lemma readLine_last (hline : newline ∉ text) (hlen : text.length < size) (hne : text ≠ []) :
    readLine size text = some (text, false, []) := by
  have hi : (text.take size).idxOf? newline = none := by
    rw [take_of_length_le (Nat.le_of_lt hlen)]
    simpa [idxOf?_eq_none_iff] using hline
  simp only [readLine, hi, if_neg (Nat.not_le.mpr hlen), if_neg hne]

omit hsize in
@[simp]
lemma readLine_nil (hpos : 0 < size) : readLine size [] = none := by
  have hi : ((([] : List UInt8).take size)).idxOf? newline = none := by simp
  simp only [readLine, hi, length_nil, if_neg (Nat.not_le.mpr hpos), if_pos]

/-- More fuel than the text is long does not change its pieces. -/
lemma pieces_fuel {fuel : Nat} (h : text.length ≤ fuel) :
    pieces size fuel text = pieces size text.length text := by
  induction fuel using Nat.strongRecOn generalizing text with
  | ind fuel ih =>
    have hpos := pieceLength_pos hsize text
    cases fuel with
    | zero => rw [Nat.le_zero.mp h]
    | succ fuel =>
      cases hn : text.length with
      | zero =>
        rw [pieces, pieces, if_neg]
        omega
      | succ n =>
        simp only [pieces]
        split
        next =>
          have hdrop : (text.drop (pieceLength size text)).length ≤ n := by
            rw [length_drop]
            omega
          rw [ih fuel (Nat.lt_succ_self _) (by omega), ← ih n (by omega) hdrop]
        next => rfl

/-- The pieces of a text that fills the buffer: the first one, and those of the rest. -/
lemma pieces_full (hlen : size ≤ text.length) : pieces size text.length text =
      ((pieces size (text.drop (pieceLength size text)).length
          (text.drop (pieceLength size text))).1 + 1,
        (pieces size (text.drop (pieceLength size text)).length
          (text.drop (pieceLength size text))).2) := by
  have hpos := pieceLength_pos hsize text
  obtain ⟨n, hn⟩ : ∃ n, text.length = n + 1 := ⟨text.length - 1, by omega⟩
  have hdrop : (text.drop (pieceLength size text)).length ≤ n := by
    rw [length_drop]
    omega
  rw [← pieces_fuel hsize hdrop, hn, pieces, if_pos (by omega)]

omit hsize in
lemma pieces_short (hlen : text.length < size) : pieces size text.length text = (0, text) := by
  cases hn : text.length with
  | zero => rfl
  | succ n => rw [pieces, if_neg (by omega)]

end

end LineReader
