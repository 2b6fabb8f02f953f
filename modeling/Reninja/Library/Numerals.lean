import Mathlib.Data.Nat.Digits.Lemmas

/-!
# Numerals

Natural numbers written in a base of at most sixteen, as bytes, and read back. Upper-case letters
are read but not written.
-/

namespace Numerals

open List

/-- The byte of a digit. -/
def digitByte (d : Nat) : UInt8 := if d < 10 then UInt8.ofNat (48 + d) else UInt8.ofNat (87 + d)

/-- The digit of a byte, if it has one. -/
def digitValue (c : UInt8) : Option Nat :=
  if 48 ≤ c ∧ c ≤ 57 then some (c.toNat - 48)
  else if 97 ≤ c ∧ c ≤ 102 then some (c.toNat - 87)
  else if 65 ≤ c ∧ c ≤ 70 then some (c.toNat - 55)
  else none

/-- The byte is a digit in this base. -/
def isDigit (base : Nat) (c : UInt8) : Bool := (digitValue c).any (· < base)

/-- The number that some digits stand for. -/
def value (base : Nat) (ds : List UInt8) : Nat :=
  ds.foldl (fun n c => n * base + (digitValue c).getD 0) 0

/-- The numeral of a number. -/
def format (base n : Nat) : List UInt8 :=
  if n = 0 then [48] else (Nat.digits base n).reverse.map digitByte

lemma digitValue_digitByte {d : Nat} (h : d < 16) : digitValue (digitByte d) = some d := by
  interval_cases d <;> rfl

lemma isDigit_digitByte {base d : Nat} (hbase : base ≤ 16) (h : d < base) :
    isDigit base (digitByte d) = true := by
  rw [isDigit, digitValue_digitByte (Nat.lt_of_lt_of_le h hbase)]
  exact decide_eq_true h

/-- A digit is a letter or a decimal digit: it is above every control character, the blank and the
signs. -/
lemma le_of_isDigit {base : Nat} {c : UInt8} (h : isDigit base c = true) : 48 ≤ c := by
  unfold isDigit digitValue at h
  split at h
  next hc => exact hc.1
  next =>
    split at h
    next hc => exact UInt8.le_trans (by decide) hc.1
    next =>
      split at h
      next hc => exact UInt8.le_trans (by decide) hc.1
      next => simp at h

lemma value_append (base : Nat) (ds : List UInt8) (c : UInt8) :
    value base (ds ++ [c]) = value base ds * base + (digitValue c).getD 0 := by
  simp [value]

lemma value_reverse_map {base : Nat} (hbase : base ≤ 16) {ds : List Nat} (h : ∀ d ∈ ds, d < base) :
    value base (ds.reverse.map digitByte) = Nat.ofDigits base ds := by
  induction ds with
  | nil => rfl
  | cons d ds ih =>
    obtain ⟨hd, hds⟩ := forall_mem_cons.mp h
    rw [reverse_cons, map_append, map_singleton, value_append, ih hds,
      digitValue_digitByte (Nat.lt_of_lt_of_le hd hbase), Nat.ofDigits_cons, Option.getD_some]
    ring

section

variable {base : Nat} (hlow : 1 < base) (hbase : base ≤ 16)

include hlow hbase

/-- A numeral stands for the number it was made of. -/
theorem value_format (n : Nat) : value base (format base n) = n := by
  unfold format
  split
  next hn =>
    subst hn
    simp [value, digitValue]
  next => rw [value_reverse_map hbase fun d hd => Nat.digits_lt_base hlow hd, Nat.ofDigits_digits]

theorem isDigit_format (n : Nat) : ∀ c ∈ format base n, isDigit base c = true := by
  unfold format
  split
  next =>
    intro c hc
    obtain rfl := mem_singleton.mp hc
    exact decide_eq_true (Nat.lt_trans Nat.zero_lt_one hlow)
  next =>
    intro c hc
    obtain ⟨d, hd, rfl⟩ := mem_map.mp hc
    exact isDigit_digitByte hbase (Nat.digits_lt_base hlow (mem_reverse.mp hd))

theorem format_injective : Function.Injective (format base) :=
  Function.LeftInverse.injective (value_format hlow hbase)

omit hlow hbase in
theorem format_ne_nil (n : Nat) : format base n ≠ [] := by
  unfold format
  split
  next => simp
  next hn => simpa using Nat.digits_ne_nil_iff_ne_zero.mpr hn

omit hlow hbase in
lemma value_lt {ds : List UInt8} (h : ∀ c ∈ ds, isDigit base c = true) :
    value base ds < base ^ ds.length := by
  induction ds using reverseRecOn with
  | nil => simp [value]
  | append_singleton ds c ih =>
    obtain ⟨hds, hc⟩ := forall_mem_append.mp h
    have hlt := ih hds
    have hdigit : (digitValue c).getD 0 < base := by
      have := hc c (mem_singleton_self c)
      unfold isDigit at this
      cases hv : digitValue c with
      | none => simp [hv] at this
      | some d => simpa [hv] using this
    rw [value_append, length_append, length_singleton, pow_succ]
    nlinarith

omit hbase in
theorem format_length_of_lt {n k : Nat} (hk : 0 < k) (h : n < base ^ k) :
    (format base n).length ≤ k := by
  unfold format
  split
  next => exact hk
  next =>
    rw [length_map, length_reverse]
    exact (Nat.digits_length_le_iff hlow n).mpr h

omit hbase in
/-- No numeral of a number is shorter. -/
theorem format_length_le {ds : List UInt8} (hne : ds ≠ []) (h : ∀ c ∈ ds, isDigit base c = true) :
    (format base (value base ds)).length ≤ ds.length :=
  format_length_of_lt hlow (length_pos_iff.mpr hne) (value_lt h)

end

end Numerals
