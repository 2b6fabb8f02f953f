import Reninja.Graph.Basic

/-!
# Runes of a string

A loop `for i, ch := range s` goes over the runes of `s` and the offsets of their first bytes; a
byte that is no UTF-8 counts as one replacement character. `foldl_range` says when such a loop is
one over the bytes.
-/

namespace Reninja.Util

open List

variable {s : GoString} {c : UInt8}

/-! ### Decoding -/

def backslash : UInt8 := 92

/-- The bytes that can stand second in the encoding of a rune with this first byte. -/
def secondBytes (first : UInt8) : UInt8 × UInt8 :=
  if first = 0xE0 then (0xA0, 0xBF)
  else if first = 0xED then (0x80, 0x9F)
  else if first = 0xF0 then (0x90, 0xBF)
  else if first = 0xF4 then (0x80, 0x8F)
  else (0x80, 0xBF)

def isContinuation (c : UInt8) : Bool := 0x80 ≤ c && c ≤ 0xBF

def runeLength : GoString → Option Nat
  | [] => none
  | c :: s =>
    let second := s.head?.any fun d => (secondBytes c).1 ≤ d && d ≤ (secondBytes c).2
    let others n := (s.drop 1).take n |>.all isContinuation
    if c < 0x80 then some 1
    else if 0xC2 ≤ c ∧ c ≤ 0xDF then if second then some 2 else none
    else if 0xE0 ≤ c ∧ c ≤ 0xEF then
      if second ∧ 2 ≤ s.length ∧ others 1 then some 3 else none
    else if 0xF0 ≤ c ∧ c ≤ 0xF4 then
      if second ∧ 3 ≤ s.length ∧ others 2 then some 4 else none
    else none

def runeError : GoString := [0xEF, 0xBF, 0xBD]

def runeValue : GoString → Nat
  | [c] => c.toNat
  | [c, d] => c.toNat % 32 * 64 + d.toNat % 64
  | [c, d, e] => c.toNat % 16 * 4096 + d.toNat % 64 * 64 + e.toNat % 64
  | [c, d, e, f] => c.toNat % 8 * 262144 + d.toNat % 64 * 4096 + e.toNat % 64 * 64 + f.toNat % 64
  | _ => 0xFFFD

/-- `utf8.DecodeRuneInString`: the rune and its number of bytes. -/
def decodeRune (s : GoString) : Nat × Nat :=
  match runeLength s with
  | some n => (runeValue (s.take n), n)
  | none => (0xFFFD, 1)

/-- The offsets and runes from offset `i` on; `skip` bytes belong to the rune before. -/
def rangeFrom : Nat → Nat → GoString → List (Nat × Nat)
  | _, _, [] => []
  | i, skip + 1, _ :: s => rangeFrom (i + 1) skip s
  | i, 0, c :: s =>
    (i, (decodeRune (c :: s)).1) :: rangeFrom (i + 1) ((decodeRune (c :: s)).2 - 1) s

/-- What `range` goes over. -/
def range (s : GoString) : List (Nat × Nat) := rangeFrom 0 0 s

/-- Behind the first byte of a rune there are no ASCII characters. -/
lemma runeLength_some {n : Nat} (h : runeLength (c :: s) = some n) :
    ∀ d ∈ s.take (n - 1), 0x80 ≤ d := by
  have hlow : 0x80 ≤ (secondBytes c).1 := by
    unfold secondBytes
    split_ifs <;> decide
  have hrest : ∀ m, (s.head?.any fun d => (secondBytes c).1 ≤ d && d ≤ (secondBytes c).2) = true →
      ((s.drop 1).take m).all isContinuation = true → ∀ d ∈ s.take (m + 1), 0x80 ≤ d := by
    intro m hsecond hothers d hd
    cases s with
    | nil => simp at hd
    | cons e t =>
      simp only [head?_cons, Option.any_some, Bool.and_eq_true, decide_eq_true_eq] at hsecond
      rw [take_succ_cons, mem_cons] at hd
      rcases hd with rfl | hd
      · exact UInt8.le_trans hlow hsecond.1
      · have := all_eq_true.mp hothers d hd
        simp only [isContinuation, Bool.and_eq_true, decide_eq_true_eq] at this
        exact this.1
  simp only [runeLength] at h
  split_ifs at h with h₁ h₂ hsecond h₃ hsecond h₄ hsecond
  · obtain rfl := Option.some.inj h
    simp
  · obtain rfl := Option.some.inj h
    exact hrest 0 hsecond (by simp)
  · obtain rfl := Option.some.inj h
    exact hrest 1 hsecond.1 hsecond.2.2
  · obtain rfl := Option.some.inj h
    exact hrest 2 hsecond.1 hsecond.2.2

lemma decodeRune_ascii (s : GoString) (h : c < 0x80) : decodeRune (c :: s) = (c.toNat, 1) := by
  simp only [decodeRune, runeLength, if_pos h]
  rfl

lemma exists_cons_of_head?_any {f : UInt8 → Bool} (h : s.head?.any f = true) :
    ∃ d t, s = d :: t := by
  cases s with
  | nil => simp at h
  | cons d t => exact ⟨d, t, rfl⟩

/-- The second byte excludes overlong encodings of three and four bytes. -/
lemma le_of_secondBytes {c d : UInt8}
    (h : ((d :: s).head?.any fun d => (secondBytes c).1 ≤ d && d ≤ (secondBytes c).2) = true) :
    0x80 ≤ d.toNat ∧ d.toNat ≤ 0xBF ∧ (c.toNat = 0xE0 → 0xA0 ≤ d.toNat) ∧
      (c.toNat = 0xF0 → 0x90 ≤ d.toNat) := by
  simp only [head?_cons, Option.any_some, Bool.and_eq_true, decide_eq_true_eq] at h
  rw [secondBytes] at h
  split_ifs at h with h₁ h₂ h₃ h₄ <;>
    simp only [UInt8.le_iff_toNat_le, UInt8.reduceToNat, ← UInt8.toNat_inj] at * <;> omega

/-- Runes of several bytes are no ASCII characters, since overlong encodings are refused. -/
lemma le_runeValue {n : Nat} (hc : 0x80 ≤ c) (h : runeLength (c :: s) = some n) :
    0x80 ≤ runeValue ((c :: s).take n) := by
  simp only [runeLength, if_neg (UInt8.not_lt.mpr hc)] at h
  split_ifs at h with h₂ hsecond h₃ hthree h₄ hfour
  · obtain rfl := Option.some.inj h
    obtain ⟨d, s, rfl⟩ := exists_cons_of_head?_any hsecond
    simp only [take_succ_cons, take_zero, runeValue]
    simp only [UInt8.le_iff_toNat_le, UInt8.reduceToNat] at h₂
    omega
  · obtain rfl := Option.some.inj h
    obtain ⟨hsecond, hlen, -⟩ := hthree
    obtain ⟨d, s, rfl⟩ := exists_cons_of_head?_any hsecond
    obtain ⟨e, s, rfl⟩ := exists_cons_of_length_pos (Nat.lt_of_succ_lt_succ hlen)
    have hd := le_of_secondBytes hsecond
    simp only [take_succ_cons, take_zero, runeValue]
    simp only [UInt8.le_iff_toNat_le, UInt8.reduceToNat] at h₃
    omega
  · obtain rfl := Option.some.inj h
    obtain ⟨hsecond, hlen, -⟩ := hfour
    obtain ⟨d, s, rfl⟩ := exists_cons_of_head?_any hsecond
    obtain ⟨e, s, rfl⟩ := exists_cons_of_length_pos (show 0 < s.length by simp at hlen; omega)
    obtain ⟨f, s, rfl⟩ := exists_cons_of_length_pos (show 0 < s.length by simp at hlen; omega)
    have hd := le_of_secondBytes hsecond
    simp only [take_succ_cons, take_zero, runeValue]
    simp only [UInt8.le_iff_toNat_le, UInt8.reduceToNat] at h₄
    omega

lemma le_decodeRune (s : GoString) (hc : 0x80 ≤ c) : 0x80 ≤ (decodeRune (c :: s)).1 := by
  cases h : runeLength (c :: s) with
  | none => simp [decodeRune, h]
  | some n =>
    simp only [decodeRune, h]
    exact le_runeValue hc h

lemma le_of_mem_take_decodeRune : ∀ d ∈ s.take ((decodeRune (c :: s)).2 - 1), 0x80 ≤ d := by
  cases h : runeLength (c :: s) with
  | none => simp [decodeRune, h]
  | some n =>
    simp only [decodeRune, h]
    exact runeLength_some h

section

variable {σ : Type*} {step : σ → Nat × Nat → σ} {g : σ → σ}

lemma foldl_rangeFrom (hstep : ∀ st i r, 0x80 ≤ r → step st (i, r) = g st)
    (hg : ∀ st, g (g st) = g st) (s : GoString) {skip : Nat} (hskip : ∀ d ∈ s.take skip, 0x80 ≤ d)
    {st : σ} (hst : skip ≠ 0 → g st = st) (i : Nat) :
    (rangeFrom i skip s).foldl step st =
      (s.zipIdx i).foldl (fun st x => step st (x.2, x.1.toNat)) st := by
  induction s generalizing skip st i with
  | nil => simp [rangeFrom]
  | cons c s ih =>
    have hbyte (hc : 0x80 ≤ c) : step st ((c, i).2, (c, i).1.toNat) = g st := hstep st i _ hc
    rw [zipIdx_cons, foldl_cons]
    cases skip with
    | succ skip =>
      -- a byte in the middle of a rune changes nothing any more
      rw [take_succ_cons, forall_mem_cons] at hskip
      rw [rangeFrom, hbyte hskip.1, hst (by simp)]
      exact ih hskip.2 (fun _ => hst (by simp)) (i + 1)
    | zero =>
      rw [rangeFrom, foldl_cons]
      by_cases hc : c < 0x80
      · rw [decodeRune_ascii s hc]
        exact ih (by simp) (by simp) (i + 1)
      · have hc : 0x80 ≤ c := UInt8.not_lt.mp hc
        rw [hstep _ _ _ (le_decodeRune s hc), hbyte hc]
        exact ih le_of_mem_take_decodeRune (fun _ => hg st) (i + 1)

/-- A loop that treats all runes behind ASCII alike, and twice as once, may go over the bytes. -/
theorem foldl_range (hstep : ∀ st i r, 0x80 ≤ r → step st (i, r) = g st)
    (hg : ∀ st, g (g st) = g st) (s : GoString) (st : σ) :
    (range s).foldl step st = s.zipIdx.foldl (fun st x => step st (x.2, x.1.toNat)) st :=
  foldl_rangeFrom hstep hg s (by simp) (by simp) 0

lemma foldl_or {α : Type*} (p : α → Bool) (l : List α) (b : Bool) :
    l.foldl (fun b x => b || p x) b = (b || l.any p) := by
  induction l generalizing b with
  | nil => simp
  | cons x l ih => simp [ih, Bool.or_assoc]

/-- A search for a rune is one for a byte if all runes behind ASCII are wanted or none is. -/
lemma any_range (p : Nat → Bool) (v : Bool) (hp : ∀ r, 0x80 ≤ r → p r = v) (s : GoString) :
    ((range s).any fun x => p x.2) = s.any fun c => p c.toNat := by
  have hloop := @foldl_range Bool (fun b x => b || p x.2) (fun b => b || v)
    (fun b i r hr => by simp [hp r hr]) (fun b => by simp) s false
  rw [foldl_or, foldl_or fun x : UInt8 × Nat => p x.1.toNat, Bool.false_or, Bool.false_or] at hloop
  rw [hloop]
  conv_rhs => rw [← zipIdx_map_fst 0 s, any_map]
  rfl

end

end Reninja.Util
