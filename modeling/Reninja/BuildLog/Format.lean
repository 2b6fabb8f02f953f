import Mathlib.Data.List.TakeWhile
import Reninja.BuildLog.Basic

/-!
# The format of an entry

An entry is read back from the line that is written for it, and no line that stands for an entry
is shorter than the one written for it.
-/

namespace Reninja.BuildLog

open LineReader Numerals List

variable {e : LogEntry} {c : UInt8} {line : GoString} {s : GoString}

lemma isDigit_formatNat (n : Nat) :
    ∀ c ∈ format 10 n, isDigit 10 c = true :=
  isDigit_format (by decide) (by decide) n

lemma isDigit_formatHex (n : Nat) :
    ∀ c ∈ format 16 n, isDigit 16 c = true :=
  isDigit_format (by decide) (by decide) n

lemma parseInt_digits {ds : GoString} (hne : ds ≠ [])
    (h : ∀ c ∈ ds, isDigit 10 c = true) :
    parseInt ds = if value 10 ds < 2 ^ 63 then some (Int64.ofInt (value 10 ds))
      else none := by
  cases ds with
  | nil => exact absurd rfl hne
  | cons c t =>
    have hc : 48 ≤ c := le_of_isDigit (h c mem_cons_self)
    have hplus : c ≠ 43 := by
      rintro rfl
      exact absurd hc (by decide)
    have hminus : c ≠ 45 := by
      rintro rfl
      exact absurd hc (by decide)
    have hall : (c :: t).all (isDigit 10) = true := all_eq_true.mpr h
    simp only [parseInt, takeSign, if_neg hplus, if_neg hminus, hall]
    simp

lemma parseInt_minus {ds : GoString} (hne : ds ≠ [])
    (h : ∀ c ∈ ds, isDigit 10 c = true) :
    parseInt (45 :: ds) =
      if value 10 ds ≤ 2 ^ 63 then some (Int64.ofInt (-(value 10 ds : Int)))
      else none := by
  have hall : ds.all (isDigit 10) = true := all_eq_true.mpr h
  simp [parseInt, takeSign, hne, hall]

theorem parseInt_formatInt (x : Int64) : parseInt (formatInt x) = some x := by
  have hlt := Int64.toInt_lt x
  have hle := Int64.le_toInt x
  have hvalue := value_format (show 1 < 10 by decide) (by decide) x.toInt.natAbs
  have hne : format 10 x.toInt.natAbs ≠ [] := format_ne_nil _
  unfold formatInt
  split
  next hneg =>
    rw [parseInt_minus hne (isDigit_formatNat _), hvalue, if_pos (by omega),
      show -(x.toInt.natAbs : Int) = x.toInt by omega, Int64.ofInt_toInt]
  next hnonneg =>
    rw [parseInt_digits hne (isDigit_formatNat _), hvalue, if_pos (by omega),
      show (x.toInt.natAbs : Int) = x.toInt by omega, Int64.ofInt_toInt]

lemma takeSign_append (s : GoString) :
    ∃ sign, s = sign ++ (takeSign s).2 ∧ ((takeSign s).1 = true → sign = [45]) := by
  cases s with
  | nil => exact ⟨[], rfl, by simp [takeSign]⟩
  | cons c t =>
    by_cases hplus : c = 43
    · exact ⟨[43], by simp [takeSign, hplus], by simp [takeSign, hplus]⟩
    · by_cases hminus : c = 45
      · exact ⟨[45], by simp [takeSign, hminus], by simp⟩
      · exact ⟨[], by simp [takeSign, hplus, hminus], by simp [takeSign, hplus, hminus]⟩

lemma parseInt_some {x : Int64} (h : parseInt s = some x) :
    ∃ sign ds, s = sign ++ ds ∧ ds ≠ [] ∧ (∀ c ∈ ds, isDigit 10 c = true) ∧
      (x.toInt = value 10 ds ∨
        sign = [45] ∧ x.toInt = -(value 10 ds : Int)) := by
  obtain ⟨sign, hs, hneg⟩ := takeSign_append s
  simp only [parseInt] at h
  split at h
  next => cases h
  next hdigits =>
    obtain ⟨hne, hall⟩ := not_or.mp hdigits
    refine ⟨sign, _, hs, hne, all_eq_true.mp (not_not.mp hall), ?_⟩
    split at h
    next hnegative =>
      split at h
      next hle =>
        right
        refine ⟨hneg hnegative, ?_⟩
        rw [← Option.some.inj h, Int64.toInt_ofInt_of_le (by omega) (by omega)]
      next => cases h
    next =>
      split at h
      next hlt =>
        left
        rw [← Option.some.inj h, Int64.toInt_ofInt_of_le (by omega) (by omega)]
      next => cases h

/-- No text of a number is shorter than the one written for it. -/
lemma formatInt_length_le {x : Int64} (h : parseInt s = some x) :
    (formatInt x).length ≤ s.length := by
  obtain ⟨sign, ds, rfl, hne, hdigits, hx | ⟨rfl, hx⟩⟩ := parseInt_some h
  · have hle := format_length_le (show 1 < 10 by decide) hne hdigits
    rw [formatInt, if_neg (by omega), hx, Int.natAbs_natCast, length_append]
    omega
  · have hle := format_length_le (show 1 < 10 by decide) hne hdigits
    rw [formatInt, hx, Int.natAbs_neg, Int.natAbs_natCast, length_append,
      length_singleton]
    split
    next =>
      rw [length_cons]
      omega
    next => omega

lemma skipSpace_digit (hc : isDigit 16 c = true) (s : GoString) :
    skipSpace (c :: s) = c :: s := by
  have hnone : spaces.find? (·.isPrefixOf (c :: s)) = none := by
    rw [find?_eq_none]
    intro sp hsp hpre
    obtain ⟨d, t, rfl, hd⟩ : ∃ d t, sp = d :: t ∧ isDigit 16 d = false := by
      have hall : ∀ sp ∈ spaces, ∃ d t, sp = d :: t ∧ isDigit 16 d = false := by
        intro sp hsp
        have hhead : spaces.all fun sp => sp.head?.any fun d => !isDigit 16 d := by
          decide
        have := all_eq_true.mp hhead sp hsp
        cases sp with
        | nil => simp at this
        | cons d t => exact ⟨d, t, rfl, by simpa using this⟩
      exact hall sp hsp
    simp only [isPrefixOf_cons_cons, Bool.and_eq_true, beq_iff_eq] at hpre
    rw [hpre.1, hc] at hd
    exact absurd hd (by decide)
  simp only [skipSpace, length_cons, skipSpaces, hnone]

lemma skipSpaces_length_le (n : Nat) (s : GoString) : (skipSpaces n s).length ≤ s.length := by
  induction n generalizing s with
  | zero => exact Nat.le_refl _
  | succ n ih =>
    rw [skipSpaces]
    split
    next => exact Nat.le_refl _
    next sp _ =>
      refine Nat.le_trans (ih _) ?_
      rw [length_drop]
      exact Nat.sub_le _ _

theorem scanHex_format (h : UInt64) : scanHex (format 16 h.toNat) = some h := by
  have hne : format 16 h.toNat ≠ [] := format_ne_nil _
  have hskip : skipSpace (format 16 h.toNat) = format 16 h.toNat := by
    cases hf : format 16 h.toNat with
    | nil => exact absurd hf hne
    | cons c t => exact skipSpace_digit (isDigit_formatHex h.toNat c (by simp [hf])) t
  have hdigits : (format 16 h.toNat).takeWhile (isDigit 16) =
      format 16 h.toNat := takeWhile_eq_self_iff.mpr (isDigit_formatHex _)
  simp only [scanHex, hskip, hdigits, if_neg hne,
    value_format (show 1 < 16 by decide) (Nat.le_refl 16) h.toNat, if_pos h.toNat_lt,
    UInt64.ofNat_toNat]

lemma formatHash_length_le {h : UInt64} (hs : scanHex s = some h) :
    (format 16 h.toNat).length ≤ s.length := by
  unfold scanHex at hs
  simp only at hs
  split at hs
  next => cases hs
  next hne =>
    split at hs
    next hlt =>
      have hdigits : ∀ c ∈ (skipSpace s).takeWhile (isDigit 16),
          isDigit 16 c = true := fun c hc => mem_takeWhile_imp hc
      have hle := format_length_le (show 1 < 16 by decide) hne hdigits
      rw [← Option.some.inj hs, UInt64.toNat_ofNat_of_lt' hlt]
      calc _ ≤ _ := hle
        _ ≤ (skipSpace s).length := (List.takeWhile_prefix _).length_le
        _ ≤ s.length := skipSpaces_length_le _ s
    next => cases hs

/-! ### Lines -/

section

variable {base : Nat} {ds : GoString} (h : ∀ c ∈ ds, isDigit base c = true)

include h

lemma notMem_of_isDigit (hc : c < 48) : c ∉ ds := by
  intro hmem
  exact absurd (le_of_isDigit (h c hmem)) (UInt8.not_le.mpr hc)

end

lemma notMem_formatInt (hc : c < 45) (x : Int64) : c ∉ formatInt x := by
  have hdigits : c ∉ format 10 x.toInt.natAbs :=
    notMem_of_isDigit (isDigit_formatNat _) (UInt8.lt_trans hc (by decide))
  unfold formatInt
  split
  next =>
    rw [mem_cons, not_or]
    exact ⟨UInt8.ne_of_lt hc, hdigits⟩
  next => exact hdigits

lemma notMem_formatHash (hc : c < 45) (h : UInt64) : c ∉ format 16 h.toNat :=
  notMem_of_isDigit (isDigit_formatHex _) (UInt8.lt_trans hc (by decide))

lemma formatLine_eq (e : LogEntry) :
    formatLine e = formatInt e.startTime ++ tab :: (formatInt e.endTime ++ tab ::
      (formatInt e.mtime ++ tab :: (e.output ++ tab :: format 16 e.commandHash.toNat))) := by
  simp [formatLine, intercalate]

/-- A line is read back as its entry, unless its path breaks it into other fields. -/
theorem parseEntry_formatLine (h : tab ∉ e.output) : parseEntry (formatLine e) = .ok (some e) := by
  have hsplit : (formatLine e).splitOn tab = [formatInt e.startTime, formatInt e.endTime,
      formatInt e.mtime, e.output, format 16 e.commandHash.toNat] := by
    apply splitOn_intercalate
    · have htab : tab < 45 := by decide
      simp [notMem_formatInt htab, notMem_formatHash htab, h]
    · simp
  simp only [parseEntry, hsplit, parseInt_formatInt, scanHex_format]

lemma newline_notMem_formatLine (h : newline ∉ e.output) : newline ∉ formatLine e := by
  have hlt : newline < 45 := by decide
  have htab : newline ≠ tab := by decide
  simp [formatLine_eq, notMem_formatInt hlt, notMem_formatHash hlt, h, htab]

lemma dropCarriageReturn_formatLine (e : LogEntry) :
    dropCarriageReturn (formatLine e) = formatLine e := by
  have hne : format 16 e.commandHash.toNat ≠ [] := format_ne_nil _
  have hlast : (formatLine e).getLast? = (format 16 e.commandHash.toNat).getLast? := by
    have : formatLine e = (formatInt e.startTime ++ tab :: (formatInt e.endTime ++ tab ::
        (formatInt e.mtime ++ tab :: (e.output ++ [tab])))) ++
        format 16 e.commandHash.toNat := by
      simp [formatLine_eq]
    rw [this, getLast?_append_of_ne_nil _ hne]
  rw [dropCarriageReturn, hlast, if_neg]
  intro hcr
  exact notMem_formatHash (show carriageReturn < 45 by decide) e.commandHash
    (mem_of_getLast? hcr)

lemma parseEntry_some (h : parseEntry line = .ok (some e)) :
    ∃ a b c d, line.splitOn tab = [a, b, c, e.output, d] ∧ parseInt a = some e.startTime ∧
      parseInt b = some e.endTime ∧ parseInt c = some e.mtime ∧
      scanHex d = some e.commandHash := by
  unfold parseEntry at h
  split at h
  next a b c out d hsplit =>
    cases ha : parseInt a with
    | none => simp [ha] at h
    | some startTime =>
    cases hb : parseInt b with
    | none => simp [ha, hb] at h
    | some endTime =>
    cases hc : parseInt c with
    | none => simp [ha, hb, hc] at h
    | some mtime =>
    cases hd : scanHex d with
    | none => simp [ha, hb, hc, hd] at h
    | some hash =>
      simp only [ha, hb, hc, hd, Except.ok.injEq, Option.some.injEq] at h
      subst h
      exact ⟨a, b, c, d, hsplit, ha, hb, hc, hd⟩
  next => simp at h

lemma formatLine_length_le (h : parseEntry line = .ok (some e)) :
    (formatLine e).length ≤ line.length := by
  obtain ⟨a, b, c, d, hsplit, ha, hb, hc, hd⟩ := parseEntry_some h
  have hline : [tab].intercalate (line.splitOn tab) = line := intercalate_splitOn tab
  rw [hsplit] at hline
  have hla := formatInt_length_le ha
  have hlb := formatInt_length_le hb
  have hlc := formatInt_length_le hc
  have hld := formatHash_length_le hd
  rw [← hline, formatLine_eq]
  simp only [intercalate, intersperse, flatten_cons, flatten_nil,
    length_append, length_cons, length_nil]
  omega

lemma notMem_output (hline : newline ∉ line) (h : parseEntry line = .ok (some e)) :
    tab ∉ e.output ∧ newline ∉ e.output := by
  obtain ⟨a, b, c, d, hsplit, -⟩ := parseEntry_some h
  refine ⟨notMem_of_mem_splitOn line (by rw [hsplit]; simp), fun hmem => hline ?_⟩
  rw [← show [tab].intercalate (line.splitOn tab) = line from intercalate_splitOn tab, hsplit]
  simp [intercalate, hmem]

end Reninja.BuildLog
