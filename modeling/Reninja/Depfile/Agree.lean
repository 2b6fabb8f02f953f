import Reninja.Depfile.InPlace

/-!
# The parser reads what the tokens say

A machine that holds a name and the rest of a text goes on as the tokens of the rest do. So the
parser ends, without an access out of range, with the targets, dependencies and error of `reading`.
-/

namespace Reninja.Depfile

open List

variable {p : Pattern} {n : Nat} {s : GoString}
variable {err : Option GoString} {names : Names}

lemma tokensUpTo_eq {limit limit' : Nat} (h : s.length ≤ limit) (h' : s.length ≤ limit') :
    tokensUpTo limit s = tokensUpTo limit' s := by
  induction limit generalizing s limit' with
  | zero =>
    obtain rfl : s = [] := length_eq_zero_iff.mp (by omega)
    cases limit' <;> rfl
  | succ limit ih =>
    by_cases hs : s = []
    · subst hs
      cases limit' <;> rfl
    · have hpos := length_pos_iff.mpr hs
      obtain ⟨limit', rfl⟩ := Nat.exists_eq_succ_of_ne_zero (show limit' ≠ 0 by omega)
      have hn := (scan_match s).pos
      simp only [tokensUpTo, hs, if_false, nextToken, listedMatch_eq_scan, Option.map_some]
      rw [ih] <;> (rw [length_drop]; omega)

lemma tokens_nil : tokens [] = [] := rfl

lemma tokens_eq (hs : s ≠ []) (hscan : scan s = (p, n)) :
    tokens s = ⟨p, (s ++ [0]).take n⟩ :: tokens (s.drop n) := by
  obtain ⟨limit, hlimit⟩ := Nat.exists_eq_succ_of_ne_zero (length_pos_iff.mpr hs).ne'
  have hn := (match_of_scan hscan).pos
  rw [tokens, hlimit]
  simp only [tokensUpTo, hs, if_false, nextToken, listedMatch_eq_scan, hscan, Option.map_some]
  congr 1
  exact tokensUpTo_eq (by rw [length_drop]; omega) (Nat.le_refl _)

lemma Token.endsLine_of_not_endsName {t : Token} (h : t.pattern.endsName = false) :
    t.endsLine = false := by
  obtain ⟨p, w⟩ := t
  cases p <;> first | rfl | cases h

def Names.reading (names : Names) : Reading where
  outs := names.outs
  ins := names.ins
  afterColon := !names.parsingTargets
  inputAsTarget := names.poisonedInput
  anyColon := names.haveTarget
  anyName := !names.isEmpty

lemma addPiece_reading (names : Names) (isDependency : Bool) (piece : GoString) :
    names.reading.addName isDependency piece =
      ((names.addPiece isDependency piece).1.reading, (names.addPiece isDependency piece).2) := by
  by_cases hpiece : piece = []
  · simp [Reading.addName, Names.addPiece, hpiece]
  · by_cases hins : piece ∈ names.ins <;> cases isDependency <;>
      cases hp : names.poisonedInput <;> by_cases houts : piece ∈ names.outs <;>
      simp [Reading.addName, Reading.addDependency, Reading.addTarget, appendNew, Names.addPiece,
        Names.reading, hpiece, hins, hp, houts]

lemma addText_reading (names : Names) (text : GoString) :
    names.reading.readName text =
      ((names.addText text).1.reading, (names.addText text).2) := by
  rw [Reading.readName, Names.addText]
  split_ifs
  · exact addPiece_reading { names with parsingTargets := false, haveTarget := true } _ _
  · exact addPiece_reading names _ _

lemma endLine_reading (names : Names) (newline : Bool) :
    (names.endLine newline).reading =
      if newline then names.reading.endLine else names.reading := by
  cases newline <;> rfl

lemma missingColon_reading (names : Names) :
    names.missingColon = (names.reading.readNames []).2 := by
  rw [Names.missingColon, Reading.readNames, Names.reading]
  cases names.haveTarget <;> cases names.isEmpty <;> rfl

namespace Machine

variable {m : Machine} {text s : GoString}

lemma step_inside (hm : m.Holds text s) (hscan : scan s = (p, n)) (hname : p.endsName = false) :
    ∃ m', m.step = .next m' ∧ m'.names = m.names ∧
      m'.Holds (text ++ Token.text ⟨p, (s ++ [0]).take n⟩) (s.drop n) := by
  have hmatch := match_of_scan hscan
  obtain ⟨htext, hrest, hle, hout, -, hlen⟩ := advance_spec hm hmatch rfl rfl
  have hstep := step_eq hm.toInBounds hm.rest_eq (t := ⟨p, (s ++ [0]).take n⟩) hscan rfl
  simp only [hname] at hstep
  refine ⟨_, hstep, rfl, ⟨⟨hle, hout, ?_⟩, htext, hrest, ?_⟩⟩
  · have hn := hmatch.le_length hname
    have hcursor := hm.cursor_le
    rw [← hm.rest_eq, length_drop] at hn
    rw [hlen]
    exact Nat.add_le_of_le_sub' hcursor hn
  · have hline := Token.endsLine_of_not_endsName (t := ⟨p, (s ++ [0]).take n⟩) hname
    have hnewline := hm.noNewline
    simp only [advance, written, hline, hnewline, Bool.or_false]

lemma step_end (hm : m.Holds text s) (hscan : scan s = (p, n)) (hname : p.endsName = true)
    {token : Token} (htoken : token = ⟨p, (s ++ [0]).take n⟩)
    (hadd : m.names.addText (text ++ token.text) = (names, err)) :
    (∃ e, err = some e ∧ m.step = .done names err) ∨
      err = none ∧ s.drop n = [] ∧ m.step = .done (names.endLine token.endsLine)
        (names.endLine token.endsLine).missingColon ∨
      err = none ∧ s.drop n ≠ [] ∧ ∃ m', m.step = .next m' ∧
        m'.names = names.endLine token.endsLine ∧ m'.Holds [] (s.drop n) := by
  have hmatch := match_of_scan hscan
  obtain ⟨htext, hrest, hle, hout, hbuf, -⟩ := advance_spec hm hmatch htoken rfl
  have hstep := step_eq hm.toInBounds hm.rest_eq (t := token) (by rw [hscan, htoken])
    (by rw [htoken])
  have hnames : (m.advance n token).names = m.names := rfl
  have hline : (m.advance n token).haveNewline = token.endsLine := by
    have hnewline := hm.noNewline
    simp only [advance, written, hnewline, Bool.false_or]
  rw [htoken] at hstep
  simp only [hname, if_true] at hstep
  rw [← htoken, endName_eq hle hbuf, htext, hnames, hadd] at hstep
  cases err with
  | some e => exact .inl ⟨e, rfl, hstep⟩
  | none =>
    rw [continueWith, hline] at hstep
    have hmore : (m.advance n token).cursor < (m.advance n token).contentBytes.length ↔
        s.drop n ≠ [] := by
      rw [← hrest, ne_eq, drop_eq_nil_iff, Nat.not_le]
    by_cases hdrop : s.drop n = []
    · rw [if_neg (fun h => hmore.mp h hdrop)] at hstep
      exact .inr (.inl ⟨rfl, hdrop, hstep⟩)
    · rw [if_pos (hmore.mpr hdrop)] at hstep
      refine .inr (.inr ⟨rfl, hdrop, _, hstep, rfl, ?_⟩)
      refine ⟨⟨Nat.le_refl _, Nat.le_refl _, Nat.le_of_lt (hmore.mpr hdrop)⟩, ?_, hrest, rfl⟩
      simp only [Machine.text, Nat.sub_self, take_zero]

end Machine

/-! ### Whole runs -/

lemma readName_nil (r : Reading) : r.readName [] = (r, none) := rfl

lemma readNames_empty (r : Reading) : r.readNames [([], false)] = r.readNames [] := rfl

lemma readNames_cons_empty (r : Reading) (name : GoString × Bool) :
    r.readNames [name, ([], false)] = r.readNames [name] := by
  simp only [Reading.readNames, readName_nil]
  rfl

lemma readNames_splitNames (r : Reading) (text : GoString) (hscan : scan s = (p, n))
    (hname : p.endsName = true) : r.readNames (splitNames text (tokens s)) =
      r.readNames ((text ++ Token.text ⟨p, (s ++ [0]).take n⟩,
        Token.endsLine ⟨p, (s ++ [0]).take n⟩) :: splitNames [] (tokens (s.drop n))) := by
  by_cases hs : s = []
  · subst hs
    obtain ⟨rfl, rfl⟩ : Pattern.nul = p ∧ 1 = n := Prod.mk.inj hscan
    have htext : Token.text ⟨.nul, ([] ++ [0] : GoString).take 1⟩ = [] := rfl
    rw [htext, append_nil]
    exact (readNames_cons_empty r (text, false)).symm
  · rw [tokens_eq hs hscan, splitNames, if_pos hname]

lemma splitNames_inside (text : GoString) (hscan : scan s = (p, n)) (hname : p.endsName = false) :
    splitNames text (tokens s) =
      splitNames (text ++ Token.text ⟨p, (s ++ [0]).take n⟩) (tokens (s.drop n)) := by
  by_cases hs : s = []
  · subst hs
    obtain ⟨rfl, -⟩ : Pattern.nul = p ∧ 1 = n := Prod.mk.inj hscan
    cases hname
  · rw [tokens_eq hs hscan, splitNames, if_neg (by rw [hname]; decide)]

namespace Machine

variable {m : Machine} {text s : GoString}
variable {fuel : Nat}
variable {content : GoString}

lemma run_next {m' : Machine} (h : m.step = .next m') : run (fuel + 1) m = run fuel m' := by
  rw [run, h]

lemma run_done (h : m.step = .done names err) : run (fuel + 1) m = .done names err := by
  rw [run, h]

lemma run_spec (hm : m.Holds text s) (hfuel : s.length < fuel) :
    ∃ names err, run fuel m = .done names err ∧
      m.names.reading.readNames (splitNames text (tokens s)) = (names.reading, err) := by
  -- By induction on the rounds that are left: every one but the last reads a byte.
  induction fuel generalizing m text s with
  | zero => omega
  | succ fuel ih =>
    obtain ⟨p, n, hscan⟩ : ∃ p n, scan s = (p, n) := ⟨_, _, rfl⟩
    have hmatch := match_of_scan hscan
    have hn := hmatch.pos
    cases hname : p.endsName with
    | false =>
      obtain ⟨m', hstep, hnames, hm'⟩ := step_inside hm hscan hname
      have hlt : (s.drop n).length < fuel := by
        have hs : 0 < s.length := by
          have := hmatch.le_length hname
          omega
        rw [length_drop]
        omega
      rw [run_next hstep, splitNames_inside text hscan hname, ← hnames]
      exact ih hm' hlt
    | true =>
      rw [readNames_splitNames _ text hscan hname, Reading.readNames, addText_reading]
      obtain ⟨names, err, hadd⟩ : ∃ names err, m.names.addText
          (text ++ Token.text ⟨p, (s ++ [0]).take n⟩) = (names, err) := ⟨_, _, rfl⟩
      rw [hadd]
      obtain ⟨e, rfl, hstep⟩ | ⟨rfl, hdrop, hstep⟩ | ⟨rfl, hdrop, m', hstep, hnames, hm'⟩ :=
        step_end hm hscan hname rfl hadd
      · exact ⟨names, _, run_done hstep, rfl⟩
      · refine ⟨_, _, run_done hstep, ?_⟩
        simp only [hdrop, tokens_nil, splitNames, readNames_empty]
        rw [missingColon_reading, endLine_reading]
        rfl
      · have hlt : (s.drop n).length < fuel := by
          have := length_pos_iff.mpr hdrop
          rw [length_drop] at this ⊢
          omega
        obtain ⟨names', err', hrun, hread⟩ := ih hm' hlt
        refine ⟨names', err', (run_next hstep).trans hrun, ?_⟩
        rw [← hread, hnames, endLine_reading]

lemma holds_start (content : GoString) : Holds { contentBytes := content } [] content :=
  ⟨⟨Nat.le_refl 0, Nat.le_refl 0, Nat.zero_le _⟩, take_zero, drop_zero, rfl⟩

lemma holds_of_steps (h : Relation.ReflTransGen Steps { contentBytes := content } m) :
    ∃ text rest, m.Holds text rest := by
  induction h with
  | refl => exact ⟨_, _, holds_start content⟩
  | @tail m m' _ hstep ih =>
    obtain ⟨text, s, hm⟩ := ih
    obtain ⟨p, n, hscan⟩ : ∃ p n, scan s = (p, n) := ⟨_, _, rfl⟩
    rw [Steps] at hstep
    cases hname : p.endsName with
    | false =>
      obtain ⟨m'', hstep', -, hm''⟩ := step_inside hm hscan hname
      obtain rfl : m'' = m' := by simpa [hstep] using hstep'.symm
      exact ⟨_, _, hm''⟩
    | true =>
      obtain ⟨e, -, hstep'⟩ | ⟨-, -, hstep'⟩ | ⟨-, -, m'', hstep', -, hm''⟩ :=
        step_end hm hscan hname rfl rfl
      · cases hstep.symm.trans hstep'
      · cases hstep.symm.trans hstep'
      · obtain rfl : m'' = m' := by simpa [hstep] using hstep'.symm
        exact ⟨_, _, hm''⟩

/-- The actions of a reachable state write in front of what is read. -/
lemma act_of_steps (h : Relation.ReflTransGen Steps { contentBytes := content } m)
    (hscan : scan (m.contentBytes.drop m.cursor) = (p, n)) :
    m.outIdx ≤ m.cursor ∧ ∃ m' b, m.act n p = some (m', b) ∧ m'.outIdx ≤ m.cursor + n := by
  obtain ⟨text, s, hm⟩ := holds_of_steps h
  have hmatch := match_of_scan hscan
  refine ⟨hm.out_le, _, _, act_eq hm.toInBounds rfl hmatch, ?_⟩
  exact Nat.add_le_add hm.out_le hmatch.length_text.1

end Machine

lemma parse_done (content : GoString) :
    ∃ names, parse content = .done names (reading content).2 ∧
      names.outs = (reading content).1.outs ∧ names.ins = (reading content).1.ins := by
  by_cases hcontent : content = []
  · subst hcontent
    exact ⟨{}, rfl, rfl, rfl⟩
  · obtain ⟨names, err, hrun, hread⟩ :=
      Machine.run_spec (Machine.holds_start content) (Nat.lt_succ_self content.length)
    have hreading : reading content = (names.reading, err) := hread
    rw [parse, if_neg hcontent, hreading]
    exact ⟨names, hrun, rfl, rfl⟩

/-- For every content the parser ends, without an access out of range, with the targets, the
dependencies and the error that the tokens of the content make up, and no write of it passes the
place up to which it has read. -/
theorem parse_eq_reading (content : GoString) :
    (∃ names, parse content = .done names (reading content).2 ∧
      names.outs = (reading content).1.outs ∧ names.ins = (reading content).1.ins) ∧
    ∀ m p n, Relation.ReflTransGen Machine.Steps { contentBytes := content } m →
      scan (m.contentBytes.drop m.cursor) = (p, n) →
      m.outIdx ≤ m.cursor ∧ ∃ m' b, m.act n p = some (m', b) ∧ m'.outIdx ≤ m.cursor + n :=
  ⟨parse_done content, fun _ _ _ h hscan => Machine.act_of_steps h hscan⟩

end Reninja.Depfile
