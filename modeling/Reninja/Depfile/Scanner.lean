import Mathlib.Data.List.TakeWhile
import Reninja.Depfile.Parser

/-!
# What the scanner matches

The scanner goes by the first byte of the text, and in front of a run of backslashes by the byte
behind the run and by the length of the run.
-/

namespace Reninja.Depfile

open List

variable {t : GoString}

def backslashes (k : Nat) : GoString := replicate k 92

@[simp] lemma length_backslashes (k : Nat) : (backslashes k).length = k := length_replicate

lemma backslashes_succ (k : Nat) : backslashes (k + 1) = 92 :: backslashes k := replicate_succ

lemma backslashes_succ' (k : Nat) : backslashes (k + 1) = backslashes k ++ [92] :=
  replicate_succ'

lemma exists_backslashes (s : GoString) : ∃ k t, s = backslashes k ++ t ∧ peek t ≠ 92 := by
  induction s with
  | nil => exact ⟨0, [], rfl, by decide⟩
  | cons c s ih =>
    by_cases hc : c = 92
    · obtain ⟨k, t, rfl, ht⟩ := ih
      exact ⟨k + 1, t, by rw [hc, backslashes_succ, cons_append], ht⟩
    · exact ⟨0, c :: s, rfl, hc⟩

def runMatch (k : Nat) (t : GoString) : Pattern × Nat :=
  let c := peek t
  if c = 0 then if k = 1 then (.other, 1) else (.text, k)
  else if c = 10 then if k = 1 then (.continuation, 2) else (.text, k)
  else if c = 13 then
    if k = 1 then if peek t.tail = 10 then (.continuation, 3) else (.other, 1) else (.text, k)
  else if c = 32 then (if k % 2 = 0 then .evenSpace else .oddSpace, k + 1)
  else if c = 35 then (.hash, k + 1)
  else if c = 58 then afterColon k t.tail
  else (.text, k + 1)

lemma afterBackslashes_append (k j : Nat) (t : GoString) :
    afterBackslashes k (backslashes j ++ t) = afterBackslashes (k + j) t := by
  induction j generalizing k with
  | zero => rfl
  | succ j ih =>
    rw [backslashes_succ, cons_append, afterBackslashes]
    simp only [show (92 : UInt8) ≠ 0 from by decide, show (92 : UInt8) ≠ 10 from by decide,
      show (92 : UInt8) ≠ 13 from by decide, show (92 : UInt8) ≠ 32 from by decide,
      show (92 : UInt8) ≠ 35 from by decide, show (92 : UInt8) ≠ 58 from by decide,
      or_self, if_false, if_true]
    rw [ih, Nat.add_right_comm, Nat.add_assoc]

lemma afterBackslashes_eq {k : Nat} (hk : 2 ≤ k) (ht : peek t ≠ 92) :
    afterBackslashes k t = runMatch k t := by
  have hk1 : k ≠ 1 := by omega
  cases t with
  | nil => simp [afterBackslashes, runMatch, peek, hk1]
  | cons c cs =>
    have hc : c ≠ 92 := ht
    simp only [afterBackslashes, runMatch, peek, headD_cons, tail_cons, hk1, hc, if_false]
    split_ifs <;> simp_all

lemma scan_backslashes (k : Nat) (ht : peek t ≠ 92) :
    scan (backslashes (k + 1) ++ t) = runMatch (k + 1) t := by
  have hscan : scan (backslashes (k + 1) ++ t) = afterBackslash (backslashes k ++ t) := rfl
  rw [hscan]
  cases k with
  | zero =>
    simp only [backslashes, replicate_zero, nil_append, Nat.zero_add, afterBackslash,
      runMatch, ht, if_false, if_true]
    rfl
  | succ k =>
    have h92 : afterBackslash (backslashes (k + 1) ++ t) =
        afterBackslashes 2 (backslashes k ++ t) := rfl
    rw [h92, afterBackslashes_append, Nat.add_comm, afterBackslashes_eq (by omega) ht]

/-- The byte in front of a text, unless it is the NUL behind its end. -/
lemma eq_cons_of_peek {c : UInt8} (h : peek t = c) (hc : c ≠ 0) : ∃ cs, t = c :: cs := by
  cases t with
  | nil => exact absurd h.symm hc
  | cons d cs =>
    obtain rfl : d = c := h
    exact ⟨cs, rfl⟩

/-- The texts at the front of which each pattern matches, with the length of the match. -/
inductive Match : GoString → Pattern → Nat → Prop
  | oddSpace (j : Nat) (t : GoString) :
      Match (backslashes (2 * j + 1) ++ 32 :: t) .oddSpace (2 * j + 2)
  | evenSpace (j : Nat) (t : GoString) :
      Match (backslashes (2 * j + 2) ++ 32 :: t) .evenSpace (2 * j + 3)
  | hash (k : Nat) (t : GoString) : Match (backslashes (k + 1) ++ 35 :: t) .hash (k + 2)
  | colonEnd (k : Nat) (t : GoString) (ht : endsTarget (peek t) = true) :
      Match (backslashes (k + 1) ++ 58 :: t) .colonEnd (k + 3)
  | colon (k : Nat) (t : GoString) (ht : endsTarget (peek t) = false) :
      Match (backslashes (k + 1) ++ 58 :: t) .colon (k + 2)
  | dollar (t : GoString) : Match (36 :: 36 :: t) .dollar 2
  | escaped (k : Nat) (c : UInt8) (t : GoString)
      (hc : c ≠ 0 ∧ c ≠ 10 ∧ c ≠ 13 ∧ c ≠ 32 ∧ c ≠ 35 ∧ c ≠ 58 ∧ c ≠ 92) :
      Match (backslashes (k + 1) ++ c :: t) .text (k + 2)
  | run (k : Nat) (t : GoString) (ht : peek t = 0 ∨ peek t = 10 ∨ peek t = 13) :
      Match (backslashes (k + 2) ++ t) .text (k + 2)
  | plain (s t : GoString) (hne : s ≠ []) (hs : ∀ c ∈ s, isPlain c = true)
      (ht : isPlain (peek t) = false) : Match (s ++ t) .text s.length
  | nul (s : GoString) (hs : peek s = 0) : Match s .nul 1
  | continuation (t : GoString) : Match (92 :: 10 :: t) .continuation 2
  | continuationCR (t : GoString) : Match (92 :: 13 :: 10 :: t) .continuation 3
  | newline (t : GoString) : Match (10 :: t) .newline 1
  | newlineCR (t : GoString) : Match (13 :: 10 :: t) .newline 2
  | other (c : UInt8) (t : GoString) (hc : c ≠ 0 ∧ c ≠ 10 ∧ isPlain c = false)
      (hcr : c = 13 → peek t ≠ 10) (hdollar : c = 36 → peek t ≠ 36)
      (hback : c = 92 → peek t = 0 ∨ peek t = 13 ∧ peek t.tail ≠ 10) : Match (c :: t) .other 1

lemma runMatch_match (k : Nat) (ht : peek t ≠ 92) :
    Match (backslashes (k + 1) ++ t) (runMatch (k + 1) t).1 (runMatch (k + 1) t).2 := by
  have hplain : isPlain 92 = false := by decide
  simp only [runMatch, afterColon]
  split_ifs with h0 hk h10 hk h13 hk h10' h32 heven h35 h58 hend
  · obtain rfl : k = 0 := by omega
    exact .other 92 t ⟨by decide, by decide, hplain⟩ (by simp) (by simp) fun _ => .inl h0
  · obtain ⟨j, rfl⟩ := Nat.exists_eq_succ_of_ne_zero (show k ≠ 0 by omega)
    exact .run j t (.inl h0)
  · obtain rfl : k = 0 := by omega
    obtain ⟨cs, rfl⟩ := eq_cons_of_peek h10 (by decide)
    exact .continuation cs
  · obtain ⟨j, rfl⟩ := Nat.exists_eq_succ_of_ne_zero (show k ≠ 0 by omega)
    exact .run j t (.inr (.inl h10))
  · obtain rfl : k = 0 := by omega
    obtain ⟨cs, rfl⟩ := eq_cons_of_peek h13 (by decide)
    obtain ⟨ds, rfl⟩ := eq_cons_of_peek h10' (by decide)
    exact .continuationCR ds
  · obtain rfl : k = 0 := by omega
    exact .other 92 t ⟨by decide, by decide, hplain⟩ (by simp) (by simp) fun _ => .inr ⟨h13, h10'⟩
  · obtain ⟨j, rfl⟩ := Nat.exists_eq_succ_of_ne_zero (show k ≠ 0 by omega)
    exact .run j t (.inr (.inr h13))
  · obtain ⟨cs, rfl⟩ := eq_cons_of_peek h32 (by decide)
    obtain ⟨j, hj⟩ : ∃ j, k + 1 = 2 * j + 2 := ⟨(k + 1) / 2 - 1, by omega⟩
    rw [hj]
    exact .evenSpace j cs
  · obtain ⟨cs, rfl⟩ := eq_cons_of_peek h32 (by decide)
    obtain ⟨j, hj⟩ : ∃ j, k + 1 = 2 * j + 1 := ⟨k / 2, by omega⟩
    rw [hj]
    exact .oddSpace j cs
  · obtain ⟨cs, rfl⟩ := eq_cons_of_peek h35 (by decide)
    exact .hash k cs
  · obtain ⟨cs, rfl⟩ := eq_cons_of_peek h58 (by decide)
    exact .colonEnd k cs hend
  · obtain ⟨cs, rfl⟩ := eq_cons_of_peek h58 (by decide)
    exact .colon k cs (by simpa using hend)
  · obtain ⟨cs, hcs⟩ := eq_cons_of_peek (rfl : peek t = peek t) h0
    rw [hcs]
    exact .escaped k _ cs ⟨h0, h10, h13, h32, h35, h58, ht⟩

lemma isPlain_peek_dropWhile (s : GoString) : isPlain (peek (s.dropWhile isPlain)) = false := by
  cases hrest : s.dropWhile isPlain with
  | nil => decide
  | cons d ds =>
    have := head_dropWhile_not isPlain (l := s) (by simp [hrest])
    simpa [hrest] using this

lemma scan_match (s : GoString) : Match s (scan s).1 (scan s).2 := by
  obtain ⟨k, t, rfl, ht⟩ := exists_backslashes s
  cases k with
  | succ k =>
    rw [scan_backslashes k ht]
    exact runMatch_match k ht
  | zero =>
    have hs : backslashes 0 ++ t = t := rfl
    rw [hs, scan]
    simp only [ht, if_false]
    split_ifs with h0 h10 h13 h10' h36 h36' hplain
    · exact .nul t h0
    · obtain ⟨cs, rfl⟩ := eq_cons_of_peek h10 (by decide)
      exact .newline cs
    · obtain ⟨cs, rfl⟩ := eq_cons_of_peek h13 (by decide)
      obtain ⟨ds, rfl⟩ := eq_cons_of_peek h10' (by decide)
      exact .newlineCR ds
    · obtain ⟨cs, rfl⟩ := eq_cons_of_peek h13 (by decide)
      exact .other 13 cs ⟨by decide, by decide, by decide⟩ (fun _ => h10') (by simp) (by simp)
    · obtain ⟨cs, rfl⟩ := eq_cons_of_peek h36 (by decide)
      obtain ⟨ds, rfl⟩ := eq_cons_of_peek h36' (by decide)
      exact .dollar ds
    · obtain ⟨cs, rfl⟩ := eq_cons_of_peek h36 (by decide)
      exact .other 36 cs ⟨by decide, by decide, by decide⟩ (by simp) (fun _ => h36') (by simp)
    · obtain ⟨cs, hcs⟩ := eq_cons_of_peek (rfl : peek t = peek t) h0
      have hmatch := Match.plain (t.takeWhile isPlain) (t.dropWhile isPlain) ?_ ?_ ?_
      · rwa [takeWhile_append_dropWhile] at hmatch
      · rw [hcs, takeWhile_cons, if_pos hplain]
        simp
      · exact fun c hc => mem_takeWhile_imp hc
      · exact isPlain_peek_dropWhile t
    · obtain ⟨cs, hcs⟩ := eq_cons_of_peek (rfl : peek t = peek t) h0
      rw [hcs]
      exact .other _ cs ⟨h0, h10, by simpa using hplain⟩ (fun h => absurd h h13)
        (fun h => absurd h h36) fun h => absurd h ht

lemma match_of_scan {s : GoString} {p : Pattern} {n : Nat} (h : scan s = (p, n)) : Match s p n := by
  have hmatch := scan_match s
  rwa [h] at hmatch

end Reninja.Depfile
