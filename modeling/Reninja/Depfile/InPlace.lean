import Reninja.Depfile.Tokens

/-!
# The buffer that is read and written

The parser writes names into the buffer it reads. What it has written lies between `filenameIdx`
and `outIdx`, what it has not read yet behind `cursor`, and every write stays in front of it. So
the parser reads what `reading` reads.
-/

namespace Reninja.Depfile

open List

variable {n : Nat} {p : Pattern} {s : GoString} {t : Token}

section Overwrite

variable {buf bytes : GoString} {i j : Nat}

lemma length_overwrite (h : i + bytes.length ≤ buf.length) :
    (overwrite buf i bytes).length = buf.length := by
  simp only [overwrite, length_append, length_take, length_drop]
  omega

lemma drop_overwrite (h : i + bytes.length ≤ j) (hi : i ≤ buf.length) :
    (overwrite buf i bytes).drop j = buf.drop j := by
  have hlen : (buf.take i ++ bytes).length = i + bytes.length := by
    rw [length_append, length_take, Nat.min_eq_left hi]
  obtain ⟨d, rfl⟩ := Nat.exists_eq_add_of_le h
  rw [overwrite, ← hlen, drop_length_add_append, drop_drop]

lemma take_overwrite (hi : i ≤ buf.length) :
    (overwrite buf i bytes).take (i + bytes.length) = buf.take i ++ bytes := by
  have hlen : (buf.take i ++ bytes).length = i + bytes.length := by
    rw [length_append, length_take, Nat.min_eq_left hi]
  rw [overwrite, ← hlen, take_left]

lemma overwrite_self (h : (buf.drop i).take bytes.length = bytes) :
    overwrite buf i bytes = buf := by
  rw [overwrite, append_assoc, ← drop_drop]
  nth_rewrite 1 [← h]
  rw [take_append_drop, take_append_drop]

lemma overwrite_overwrite {more : GoString} (hi : i ≤ buf.length) :
    overwrite (overwrite buf i bytes) (i + bytes.length) more =
      overwrite buf i (bytes ++ more) := by
  rw [overwrite, take_overwrite hi, drop_overwrite (by omega) hi, overwrite]
  simp only [length_append, append_assoc, Nat.add_assoc]

lemma take_drop_overwrite (hj : j ≤ i) (hi : i ≤ buf.length) :
    ((overwrite buf i bytes).drop j).take (i + bytes.length - j) =
      (buf.drop j).take (i - j) ++ bytes := by
  rw [← drop_take, take_overwrite hi, drop_append_of_le_length, drop_take]
  rw [length_take]
  omega

end Overwrite

/-! ### Actions -/

namespace Machine

variable {n : Nat}

/-- The buffer with `bytes` at the end of the name. -/
def write (m : Machine) (bytes : GoString) : Machine :=
  { m with contentBytes := overwrite m.contentBytes m.outIdx bytes
           outIdx := m.outIdx + bytes.length }

lemma write_write {m : Machine} {a b : GoString} (hm : m.outIdx ≤ m.contentBytes.length) :
    (m.write a).write b = m.write (a ++ b) := by
  simp only [write, overwrite_overwrite hm, length_append, Nat.add_assoc]

variable {m : Machine} {s t : GoString}

/-- Where the name has not fallen behind, the bytes of the match are in their place. -/
lemma write_self (hout : m.outIdx = m.cursor) (hn : n ≤ (m.contentBytes.drop m.cursor).length) :
    { m with outIdx := m.outIdx + n } = m.write ((m.contentBytes.drop m.cursor).take n) := by
  have hlen : ((m.contentBytes.drop m.cursor).take n).length = n := by
    rw [length_take, Nat.min_eq_left hn]
  simp only [write, hlen]
  rw [overwrite_self (by rw [hlen, hout])]

lemma writeText_eq (hout : m.outIdx ≤ m.cursor) (hn : m.cursor + n ≤ m.contentBytes.length) :
    m.writeText n = some (m.write ((m.contentBytes.drop m.cursor).take n)) := by
  have hrest : n ≤ (m.contentBytes.drop m.cursor).length := by
    rw [length_drop]
    omega
  have hlen : ((m.contentBytes.drop m.cursor).take n).length = n := by
    rw [length_take, Nat.min_eq_left hrest]
  rcases Nat.lt_or_ge m.outIdx m.cursor with hlt | hge
  · have hroom : n ≤ m.contentBytes.length - m.outIdx := by omega
    simp only [writeText, hlt, if_true, memmov]
    rw [if_pos ⟨by omega, hn⟩, take_take, Nat.min_eq_right hroom]
    simp only [Option.bind_eq_bind, Option.bind_some, write, hlen]
    rfl
  · simp only [writeText, if_neg (Nat.not_lt.mpr hge)]
    exact congrArg some (write_self (Nat.le_antisymm hout hge) hrest)

lemma writeBackslashes_eq {k : Nat} (hout : m.outIdx ≤ m.cursor)
    (hcursor : m.cursor ≤ m.contentBytes.length)
    (hk : (m.contentBytes.drop m.cursor).take k = backslashes k) :
    m.writeBackslashes k = some (m.write (backslashes k)) := by
  have hrest : k ≤ (m.contentBytes.drop m.cursor).length := by
    have := congrArg length hk
    rw [length_take, length_backslashes] at this
    omega
  rcases Nat.lt_or_ge m.outIdx m.cursor with hlt | hge
  · rw [length_drop] at hrest
    simp only [writeBackslashes, hlt, if_true, memset]
    rw [if_pos (by omega)]
    simp only [Option.bind_eq_bind, Option.bind_some, write, length_backslashes]
    rfl
  · simp only [writeBackslashes, if_neg (Nat.not_lt.mpr hge)]
    rw [← hk]
    exact congrArg some (write_self (Nat.le_antisymm hout hge) hrest)

lemma writeByte_eq {c : UInt8} (hm : m.outIdx < m.contentBytes.length) :
    m.writeByte c = some (m.write [c]) := by
  simp only [writeByte, store, if_pos hm]
  rfl

/-- What the indices keep to between two rounds. -/
structure InBounds (m : Machine) : Prop where
  filename_le : m.filenameIdx ≤ m.outIdx
  out_le : m.outIdx ≤ m.cursor
  cursor_le : m.cursor ≤ m.contentBytes.length

lemma writeEscaped_eq (hm : m.InBounds) {k j : Nat} {c d : UInt8}
    (hs : m.contentBytes.drop m.cursor = backslashes k ++ d :: t) (hj : j ≤ k) :
    (do let m ← m.writeBackslashes j; m.writeByte c) = some (m.write (backslashes j ++ [c])) := by
  obtain ⟨hname, hout, hcursor⟩ := hm
  have hlen := congrArg length hs
  simp only [length_drop, length_append, length_backslashes, length_cons] at hlen
  have hrun : (m.contentBytes.drop m.cursor).take j = backslashes j := by
    rw [hs, take_backslashes_append, Nat.min_eq_left hj, Nat.sub_eq_zero_of_le hj]
    exact append_nil _
  have hwrite : (m.write (backslashes j)).contentBytes.length = m.contentBytes.length :=
    length_overwrite (by rw [length_backslashes]; omega)
  rw [writeBackslashes_eq hout hcursor hrun, Option.bind_eq_bind, Option.bind_some,
    writeByte_eq, write_write (by omega)]
  rw [hwrite]
  simp only [write, length_backslashes]
  omega

/-- The state in which an action leaves the machine. -/
def written (m : Machine) (token : Token) : Machine :=
  { m.write token.text with haveNewline := m.haveNewline || token.endsLine }

lemma written_of_write {t : Token} {bytes : GoString} (htext : t.text = bytes)
    (hline : t.endsLine = false) : m.written t = m.write bytes := by
  rw [written, htext, hline, Bool.or_false]
  rfl

lemma write_nil : m.write [] = m := by
  have hbuf : overwrite m.contentBytes m.outIdx [] = m.contentBytes := overwrite_self rfl
  simp only [write, hbuf, length_nil, Nat.add_zero]

lemma take_run (k j : Nat) (t : GoString) :
    (backslashes k ++ t ++ [0]).take (k + j) = backslashes k ++ (t ++ [0]).take j := by
  rw [append_assoc, take_backslashes_append, Nat.min_eq_right (Nat.le_add_right k j),
    Nat.add_sub_cancel_left]

lemma act_escaped (hm : m.InBounds) {k j : Nat} {c d : UInt8} {token : Token}
    (hs : m.contentBytes.drop m.cursor = backslashes k ++ d :: t) (hj : j ≤ k)
    (htext : token.text = backslashes j ++ [c]) (hline : token.endsLine = false) :
    (do let m ← m.writeBackslashes j; let m ← m.writeByte c; pure (m, false)) =
      some (m.written token, false) := by
  have hwrite := writeEscaped_eq hm (c := c) hs hj
  rw [written_of_write htext hline, ← bind_assoc, hwrite]
  rfl

lemma writeOtherBackslashes_eq (hm : m.InBounds) (k : Nat) :
    m.writeOtherBackslashes (k + 2) = m.writeBackslashes k := by
  rw [writeOtherBackslashes]
  cases k with
  | succ k => rw [if_pos (by omega), Nat.add_sub_cancel]
  | zero =>
    rw [if_neg (by omega), writeBackslashes_eq hm.out_le hm.cursor_le rfl]
    exact congrArg some write_nil.symm

lemma act_text (hm : m.InBounds) {n : Nat} (hs : m.contentBytes.drop m.cursor = s)
    (hn : n ≤ s.length) :
    m.act n .text = some (m.written ⟨.text, (s ++ [0]).take n⟩, false) := by
  have hcursor : m.cursor + n ≤ m.contentBytes.length := by
    have hlen := congrArg length hs
    have := hm.cursor_le
    rw [length_drop] at hlen
    omega
  rw [act, writeText_eq hm.out_le hcursor, hs, take_append_of_le_length hn,
    written_of_write rfl rfl]
  rfl

lemma act_colonEnd (hm : m.InBounds) {k : Nat}
    (hs : m.contentBytes.drop m.cursor = backslashes (k + 1) ++ 58 :: t) :
    m.act (k + 3) .colonEnd =
      some (m.written ⟨.colonEnd, (backslashes (k + 1) ++ 58 :: t ++ [0]).take (k + 3)⟩, true) := by
  have hlen := congrArg length hs
  have hout := hm.out_le
  have hcursor := hm.cursor_le
  simp only [length_drop, length_append, length_backslashes, length_cons] at hlen
  have hroom : m.cursor + (k + 2) ≤ m.contentBytes.length := by omega
  have hbytes : (m.contentBytes.drop m.cursor).take (k + 2) = backslashes (k + 1) ++ [58] := by
    rw [hs, take_backslashes_append, Nat.min_eq_right (by omega), show k + 2 - (k + 1) = 1 by omega]
    rfl
  -- The byte behind the colon is not written over.
  have hlast : peek ((m.write (backslashes (k + 1) ++ [58])).contentBytes.drop
      (m.cursor + (k + 3) - 1)) = peek t := by
    simp only [write]
    rw [drop_overwrite (by simp; omega) (by omega), show m.cursor + (k + 3) - 1 = m.cursor + (k + 2)
      by omega, ← drop_drop, hs, drop_append, length_backslashes,
      show k + 2 - (k + 1) = 1 by omega, drop_eq_nil_of_le (by simp)]
    rfl
  have hline : Token.endsLine ⟨.colonEnd, backslashes (k + 1) ++ [58, peek t]⟩ =
      decide (peek t = 10) := by simp [Token.endsLine]
  rw [take_run (k + 1) 2, take_append_nul (i := 0) (by simp)]
  simp only [act, show k + 3 - 1 = k + 2 from rfl, writeText_eq hout hroom, hbytes,
    Option.bind_eq_bind, Option.bind_some, peek_cons, tail_cons, take_zero, written, hline,
    text_colonEnd]
  rw [← hlast]
  rfl

/-- What is done for a match is to write the text of the token. -/
lemma act_eq (hm : m.InBounds) {p : Pattern} {n : Nat} (hs : m.contentBytes.drop m.cursor = s)
    (h : Match s p n) : m.act n p = some (m.written ⟨p, (s ++ [0]).take n⟩, p.endsName) := by
  have hlen := congrArg length hs
  rw [length_drop] at hlen
  have hout := hm.out_le
  have hcursor := hm.cursor_le
  have hempty : ∀ token : Token, token.text = [] → token.endsLine = false →
      m.written token = m := fun token htext hline => by
    rw [written_of_write htext hline, write_nil]
  have hnewline : ∀ w, m.written ⟨.newline, w⟩ = { m with haveNewline := true } := fun w => by
    have hwrite : m.write (Token.text ⟨.newline, w⟩) = m := write_nil
    rw [written, hwrite, show Token.endsLine ⟨.newline, w⟩ = true from rfl, Bool.or_true]
  cases h with
  | oddSpace j t =>
    have hn : (2 * j + 2) / 2 - 1 = j := by omega
    rw [take_run (2 * j + 1) 1, act, hn]
    exact act_escaped hm hs (by omega) (text_oddSpace j) rfl
  | evenSpace j t =>
    have hrun : (m.contentBytes.drop m.cursor).take (2 * j + 2) = backslashes (2 * j + 2) := by
      rw [hs, take_backslashes_append, Nat.min_self, Nat.sub_self, take_zero, append_nil]
    have hn : 2 * j + 3 - 1 = 2 * j + 2 := rfl
    rw [take_run (2 * j + 2) 1, act, hn, writeBackslashes_eq hout hcursor hrun]
    exact congrArg (fun m => some (m, true))
      (written_of_write (text_evenSpace (2 * j + 2)) rfl).symm
  | hash k t =>
    rw [take_run (k + 1) 1, act, writeOtherBackslashes_eq hm]
    exact act_escaped hm hs (by omega) (text_hash k) rfl
  | colon k t ht =>
    rw [take_run (k + 1) 1, act, writeOtherBackslashes_eq hm]
    exact act_escaped hm hs (by omega) (text_colon k) rfl
  | colonEnd k t ht =>
    exact act_colonEnd hm hs
  | dollar t =>
    have hlt : m.outIdx < m.contentBytes.length := by
      simp only [length_cons] at hlen
      omega
    rw [act, writeByte_eq hlt]
    exact congrArg (fun m => some (m, false))
      (written_of_write (t := ⟨.dollar, [36, 36]⟩) rfl rfl).symm
  | escaped k c t hc =>
    exact act_text hm hs (by simp [backslashes]; omega)
  | run k t ht => exact act_text hm hs (by simp [backslashes])
  | plain s t hne hs' ht => exact act_text hm hs (by simp)
  | nul s hs' => rw [hempty _ rfl rfl]; rfl
  | continuation t => rw [hempty _ rfl rfl]; rfl
  | continuationCR t => rw [hempty _ rfl rfl]; rfl
  | newline t => rw [hnewline]; rfl
  | newlineCR t => rw [hnewline]; rfl
  | other c t hc hcr hdollar hback => rw [hempty _ rfl rfl]; rfl

def text (m : Machine) : GoString :=
  (m.contentBytes.drop m.filenameIdx).take (m.outIdx - m.filenameIdx)

lemma slice_eq {buf : GoString} {lo n : Nat} (h : lo + n ≤ buf.length) :
    slice buf lo n = some ((buf.drop lo).take n) := if_pos h

/-- What follows a name that `result` comes from. -/
def continueWith (m : Machine) (result : Names × Option GoString) : Outcome :=
  match result with
  | (names, some err) => .done names (some err)
  | (names, none) =>
    if m.cursor < m.contentBytes.length then
      .next { m with outIdx := m.cursor, filenameIdx := m.cursor, haveNewline := false,
                     names := names.endLine m.haveNewline }
    else
      .done (names.endLine m.haveNewline) (names.endLine m.haveNewline).missingColon

end Machine

def Names.addText (names : Names) (text : GoString) : Names × Option GoString :=
  if text.getLast? = some 58 then
    addPiece { names with parsingTargets := false, haveTarget := true } (!names.parsingTargets)
      text.dropLast
  else
    addPiece names (!names.parsingTargets) text

namespace Machine

variable {m : Machine}

lemma length_text (hname : m.filenameIdx ≤ m.outIdx) (hout : m.outIdx ≤ m.contentBytes.length) :
    m.text.length = m.outIdx - m.filenameIdx := by
  rw [text, length_take, length_drop]
  omega

lemma slice_last (hname : m.filenameIdx < m.outIdx) (hout : m.outIdx ≤ m.contentBytes.length) :
    slice m.contentBytes (m.filenameIdx + (m.outIdx - m.filenameIdx) - 1) 1 =
      some m.text.getLast?.toList := by
  have hin : m.outIdx - 1 < m.contentBytes.length := by omega
  rw [show m.filenameIdx + (m.outIdx - m.filenameIdx) - 1 = m.outIdx - 1 by omega,
    slice_eq (by omega), take_one, head?_drop, text, getLast?_take,
    if_neg (by omega), getElem?_drop,
    show m.filenameIdx + (m.outIdx - m.filenameIdx - 1) = m.outIdx - 1 by omega,
    getElem?_eq_getElem hin]
  rfl

lemma slice_text (hname : m.filenameIdx ≤ m.outIdx) (hout : m.outIdx ≤ m.contentBytes.length)
    (colon : Bool) :
    slice m.contentBytes m.filenameIdx
        (if colon then m.outIdx - m.filenameIdx - 1 else m.outIdx - m.filenameIdx) =
      some (if colon then m.text.dropLast else m.text) := by
  have hlen := length_text hname hout
  rw [slice_eq (by split_ifs <;> omega)]
  cases colon with
  | false => rfl
  | true =>
    simp only [if_true]
    rw [dropLast_eq_take, hlen, text, take_take, Nat.min_eq_left (by omega)]

lemma endName_eq (hname : m.filenameIdx ≤ m.outIdx) (hout : m.outIdx ≤ m.contentBytes.length) :
    m.endName = m.continueWith (m.names.addText m.text) := by
  have hlast : (if 0 < m.outIdx - m.filenameIdx then
      slice m.contentBytes (m.filenameIdx + (m.outIdx - m.filenameIdx) - 1) 1 else some []) =
      some m.text.getLast?.toList := by
    have hlen := length_text hname hout
    split_ifs with hpos
    · exact slice_last (by omega) hout
    · rw [length_eq_zero_iff.mp (show m.text.length = 0 by omega)]
      rfl
  have hcolon : m.text.getLast?.toList = [58] ↔ m.text.getLast? = some 58 := by
    cases m.text.getLast? <;> simp
  have hpiece := slice_text hname hout (decide (m.text.getLast? = some 58))
  simp only [decide_eq_true_eq] at hpiece
  simp only [endName, hlast, hcolon, hpiece, Names.addText]
  by_cases h58 : m.text.getLast? = some 58
  · simp only [if_pos h58]
    rfl
  · simp only [if_neg h58]
    rfl

/-- What a machine holds between two rounds: the name so far, and what is left to read. -/
structure Holds (m : Machine) (text rest : GoString) : Prop extends m.InBounds where
  text_eq : m.text = text
  rest_eq : m.contentBytes.drop m.cursor = rest
  noNewline : m.haveNewline = false

end Machine

lemma Match.pos (h : Match s p n) : 0 < n := by
  cases h with
  | plain s t hne => exact length_pos_iff.mpr hne
  | _ => omega

lemma Match.le_length (h : Match s p n) (hname : p.endsName = false) : n ≤ s.length := by
  cases h <;> first | exact absurd hname (by decide) | simp
  all_goals omega

lemma Token.length_text_le (token : Token) : token.text.length ≤ token.lexeme.length := by
  obtain ⟨p, w⟩ := token
  cases p <;> simp [Token.text]

lemma Token.length_text_lt (hname : t.pattern.endsName = true) :
    t.text.length ≤ t.lexeme.length - 1 := by
  obtain ⟨p, w⟩ := t
  cases p <;> simp_all [Token.text, Pattern.endsName]

lemma Match.length_text (h : Match s p n) : (Token.text ⟨p, (s ++ [0]).take n⟩).length ≤ n ∧
      (Token.text ⟨p, (s ++ [0]).take n⟩).length ≤ s.length := by
  have hle := Token.length_text_le ⟨p, (s ++ [0]).take n⟩
  have hlexeme : ((s ++ [0]).take n).length = min n (s.length + 1) := by simp
  simp only [hlexeme] at hle
  refine ⟨by omega, ?_⟩
  cases hname : p.endsName with
  | true =>
    have := Token.length_text_lt (t := ⟨p, (s ++ [0]).take n⟩) hname
    simp only [hlexeme] at this
    omega
  | false =>
    have := h.le_length hname
    omega

namespace Machine

variable {m : Machine}

def advance (m : Machine) (n : Nat) (token : Token) : Machine :=
  { m.written token with cursor := m.cursor + n }

lemma step_eq (hm : m.InBounds) (hs : m.contentBytes.drop m.cursor = s)
    (hscan : scan s = (t.pattern, n)) (htoken : t.lexeme = (s ++ [0]).take n) :
    m.step = if t.pattern.endsName then (m.advance n t).endName
      else .next (m.advance n t) := by
  obtain ⟨p, w⟩ := t
  obtain rfl : w = (s ++ [0]).take n := htoken
  simp only [step, hs, hscan, act_eq hm hs (match_of_scan hscan)]
  cases p.endsName <;> rfl

lemma advance_spec {text s : GoString} (hm : m.Holds text s) (h : Match s p n) {m' : Machine}
    {token : Token} (htoken : token = ⟨p, (s ++ [0]).take n⟩) (hm' : m' = m.advance n token) :
    m'.text = text ++ token.text ∧ m'.contentBytes.drop m'.cursor = s.drop n ∧
      m'.filenameIdx ≤ m'.outIdx ∧ m'.outIdx ≤ m'.cursor ∧
      m'.outIdx ≤ m'.contentBytes.length ∧ m'.contentBytes.length = m.contentBytes.length := by
  obtain ⟨⟨hname, hout, hcursor⟩, rfl, rfl, -⟩ := hm
  obtain ⟨hle, hle'⟩ := h.length_text
  rw [← htoken] at hle hle'
  rw [length_drop] at hle'
  have hroom : m.outIdx + token.text.length ≤ m.contentBytes.length := by omega
  have hlen := length_overwrite hroom
  subst hm'
  refine ⟨?_, ?_, ?_, ?_, ?_, hlen⟩
  · exact take_drop_overwrite hname (by omega)
  · have hdrop : (overwrite m.contentBytes m.outIdx token.text).drop (m.cursor + n) =
        m.contentBytes.drop (m.cursor + n) := drop_overwrite (by omega) (by omega)
    rw [drop_drop]
    exact hdrop
  · exact Nat.le_trans hname (Nat.le_add_right _ _)
  · exact Nat.add_le_add hout hle
  · exact hlen.symm ▸ hroom

end Machine

end Reninja.Depfile
