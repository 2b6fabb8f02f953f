import Reninja.Manifest.Checked

/-!
# Messages of the lexer

`Error` names the line of a token and quotes it. The line number is right for every position. The
loop that looks for the end of the quotation stops at the 72nd byte of the input, not of the line,
so that only lines near the start of the file are quoted as they should be.
-/

namespace Reninja.Lexer

open Checked List

variable (l : Lexer)

def lineStart : Nat := lastLine (l.input.take l.lastToken.toNat)

/-- The line of the last token, without its newline. -/
def lineText : GoString := (l.input.drop l.lineStart).takeWhile (· ≠ 10)

def located (message : GoString) : GoString :=
  l.filename ++ (":" : GoString) ++
    (Nat.toDigits 10 ((l.input.take l.lastToken.toNat).count 10 + 1)).map
      (fun c => UInt8.ofNat c.toNat) ++ (": " : GoString) ++ message ++ [10]

/-- A line cut to its first 72 bytes, with dots if it has as many. -/
def cutLine (line : GoString) : GoString :=
  line.take 72 ++ if 72 ≤ line.length then ("..." : GoString) else []

/-- The line of the last token, and under it a caret in the column of the token. -/
def caretLines (quoted : GoString) : GoString :=
  quoted ++ [10] ++ replicate (l.column l.lineStart).toNat 32 ++ ("^ near here" : GoString)

/-- The message names the line of the token; in the columns from 1 to 71 the line is quoted. -/
def Reports (message : GoString) : Prop :=
  ∃ context, Checked.error l message = .ok (l.located message ++ context) ∧
    (0 < l.column l.lineStart → l.column l.lineStart < 72 →
      context = l.caretLines (cutLine l.lineText))

/-- The line is the first one, or ends before the 72nd byte of the input, or happens to be short and
to have dots behind that byte. -/
def QuotedWell : Prop :=
  l.lineStart = 0 ∨ l.lineStart + l.lineText.length < 72 ∨
    l.lineText.length < 72 ∧ l.lineText.drop (72 - l.lineStart) = "..."

variable {l}

lemma quoteEnd_eq {input : GoString} {n i : Nat} (hn : 72 ≤ n + i) :
    quoteEnd input n i =
      if i + ((input.drop i).takeWhile (· ≠ 10)).length < 72 then
        (i + ((input.drop i).takeWhile (· ≠ 10)).length, false)
      else (max i 72, true) := by
  induction n generalizing i with
  | zero =>
    rw [quoteEnd, if_neg (by omega), Nat.max_eq_left (by omega)]
  | succ n ih =>
    rw [quoteEnd]
    by_cases hi : i < 72
    · rw [if_pos hi]
      cases hc : input[i]? with
      | none =>
        have hlen := getElem?_eq_none_iff.mp hc
        simp [drop_of_length_le hlen, hi]
      | some c =>
        have hdrop : input.drop i = c :: input.drop (i + 1) :=
          (List.getElem?_eq_some_iff.mp hc).elim fun hlt heq => by
            rw [drop_eq_getElem_cons hlt, heq]
        simp only
        by_cases hnl : c = 10
        · simp [hdrop, hnl, hi]
        · rw [if_neg hnl, ih (by omega), hdrop, takeWhile_cons_of_pos (by simpa using hnl),
            length_cons, Nat.max_eq_right (Nat.le_of_lt hi), Nat.max_eq_right (by omega),
            Nat.add_assoc, Nat.add_comm 1]
    · rw [if_neg hi, if_neg (by omega), Nat.max_eq_left (by omega)]

/-- What is quoted: a part of the line, and dots unless the line ends early enough. -/
lemma quoted_eq :
    let stop := quoteEnd l.input 72 l.lineStart
    (l.input.take stop.1).drop l.lineStart ++ (if stop.2 then ("..." : GoString) else []) =
      if l.lineStart + l.lineText.length < 72 then l.lineText
      else l.lineText.take (72 - l.lineStart) ++ "..." := by
  have hcut : ∀ k ≤ l.lineText.length,
      (l.input.take (l.lineStart + k)).drop l.lineStart = l.lineText.take k := by
    intro k hk
    have hline : l.input.drop l.lineStart =
        l.lineText ++ (l.input.drop l.lineStart).dropWhile (· ≠ 10) :=
      takeWhile_append_dropWhile.symm
    rw [drop_take, Nat.add_sub_cancel_left, hline, take_append_of_le_length hk]
  have hstop : quoteEnd l.input 72 l.lineStart = if l.lineStart + l.lineText.length < 72 then
      (l.lineStart + l.lineText.length, false) else (max l.lineStart 72, true) :=
    quoteEnd_eq (by omega)
  rw [hstop]
  by_cases hend : l.lineStart + l.lineText.length < 72
  · simp [hend, hcut _ (Nat.le_refl _)]
  · have hmax : max l.lineStart 72 = l.lineStart + (72 - l.lineStart) := by omega
    simp only [if_neg hend, if_true]
    rw [hmax, hcut _ (by omega)]

lemma quoted_eq_cutLine_iff :
    ((if l.lineStart + l.lineText.length < 72 then l.lineText
      else l.lineText.take (72 - l.lineStart) ++ "...") = cutLine l.lineText) ↔
      l.QuotedWell := by
  have hdots : ("..." : GoString).length = 3 := by decide +kernel
  rw [QuotedWell, cutLine]
  by_cases hend : l.lineStart + l.lineText.length < 72
  · simp [hend, take_of_length_le (show l.lineText.length ≤ 72 by omega),
      show ¬ 72 ≤ l.lineText.length by omega]
  · rw [if_neg hend]
    by_cases hlen : 72 ≤ l.lineText.length
    · -- a long line: the parts have the same length only at the start of the input
      rw [if_pos hlen, append_left_inj]
      constructor
      · intro h
        have := congrArg length h
        rw [length_take, length_take] at this
        exact .inl (by omega)
      · rintro (h | h | h)
        · rw [h]
        · exact absurd h hend
        · exact absurd h.1 (by omega)
    · have htake : l.lineText.take 72 =
          l.lineText.take (72 - l.lineStart) ++ l.lineText.drop (72 - l.lineStart) := by
        rw [take_append_drop, take_of_length_le (by omega)]
      rw [if_neg hlen, append_nil, htake, append_right_inj]
      constructor
      · exact fun h => .inr (.inr ⟨by omega, h.symm⟩)
      · rintro (h | h | h)
        · omega
        · exact absurd h hend
        · exact h.2.symm

/-- The line number is right, and the line is quoted as it should be exactly if its end is found. -/
theorem error_reports_iff (l : Lexer) (message : GoString) :
    l.Reports message ↔
      (0 < l.column l.lineStart → l.column l.lineStart < 72 → l.QuotedWell) := by
  have hlineOf : l.lineOf = ((Nat.toDigits 10 ((l.input.take l.lastToken.toNat).count 10 + 1)).map
      fun c => UInt8.ofNat c.toNat, l.lineStart) := rfl
  have herror : Checked.error l message = .ok (l.located message ++
      if 0 < l.column l.lineStart ∧ l.column l.lineStart < 72 then
        l.caretLines (if l.lineStart + l.lineText.length < 72 then l.lineText
          else l.lineText.take (72 - l.lineStart) ++ ("..." : GoString))
      else []) := by
    rw [error_eq, Lexer.error, hlineOf, ← quoted_eq]
    by_cases hcol : 0 < l.column l.lineStart ∧ l.column l.lineStart < 72
    · simp [hcol, located, caretLines]
    · simp only [if_neg hcol, located, append_nil]
  constructor
  · rintro ⟨context, hok, hcontext⟩ hpos hlt
    rw [herror, if_pos ⟨hpos, hlt⟩, hcontext hpos hlt] at hok
    have hlines := append_cancel_left (Except.ok.inj hok)
    simp only [caretLines, append_assoc, append_left_inj] at hlines
    exact quoted_eq_cutLine_iff.mp hlines
  · intro h
    refine ⟨_, herror, fun hpos hlt => ?_⟩
    rw [if_pos ⟨hpos, hlt⟩, quoted_eq_cutLine_iff.mpr (h hpos hlt)]

def secondLine : Lexer where
  filename := "f"
  input := replicate 72 97 ++ ("\nbad line\n" : GoString)
  lastToken := 77

/-- Of a line that starts behind the 72nd byte nothing is quoted but the dots. -/
theorem secondLine_not_quoted :
    Checked.error secondLine "m" = .ok "f:2: m\n...\n    ^ near here" ∧
      cutLine secondLine.lineText = "bad line" ∧ ¬ secondLine.Reports "m" := by
  have herror : Checked.error secondLine "m" = .ok "f:2: m\n...\n    ^ near here" := by
    rw [error_eq]
    decide +kernel
  have hright : secondLine.located "m" ++ secondLine.caretLines (cutLine secondLine.lineText) =
      "f:2: m\nbad line\n    ^ near here" := by
    decide +kernel
  refine ⟨herror, by decide +kernel, ?_⟩
  rintro ⟨context, hok, hcontext⟩
  rw [hcontext (by decide +kernel) (by decide +kernel), hright, herror] at hok
  exact absurd (Except.ok.inj hok) (by decide +kernel)

end Reninja.Lexer
