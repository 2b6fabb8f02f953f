import Reninja.Graph.Basic

/-!
# Eliding the middle of a line

`internal/elide_middle`: a line that is too wide for the terminal keeps its two ends, with dots
between them. The bytes of colour sequences take no width, and all of them are kept.
-/

namespace Reninja.ElideMiddle

open List

variable {input : GoString} {ms : List (UInt8 × Bool)} {v : VisibleIterator} {start : Nat}
  {str : GoString} {n : Nat}

def esc : UInt8 := 27

/-- `ansiColorSequenceIterator`. There is no current sequence if its end is zero. -/
structure ColorIterator where
  input : GoString
  curStart : Nat := 0
  curEnd : Nat := 0

def ColorIterator.hasSequence (a : ColorIterator) : Bool := a.curEnd ≠ 0

def ColorIterator.sequenceSize (a : ColorIterator) : Nat := a.curEnd - a.curStart

def ColorIterator.sequenceContains (a : ColorIterator) (inputIndex : Nat) : Bool :=
  a.curStart ≤ inputIndex && inputIndex < a.curEnd

def isParameterChar (c : UInt8) : Bool := (48 ≤ c && c ≤ 57) || c = 59

def findNextSequenceFrom (input : GoString) (start : Nat) : Option (Nat × Nat) :=
  match (input.drop start).findIdx? (· = esc) with
  | none => none
  | some idx =>
    if input.length < start + idx + 4 then
      none
    else if input[start + idx + 1]? ≠ some 91 then
      findNextSequenceFrom input (start + idx + 1)
    else
      let last := start + idx + 2 +
        ((input.drop (start + idx + 2)).takeWhile isParameterChar).length
      match input[last]? with
      | none => none
      | some c =>
        if c ≠ 109 then findNextSequenceFrom input (start + idx + 3)
        else some (start + idx, last + 1)
termination_by input.length - start

def ColorIterator.at (input : GoString) : Option (Nat × Nat) → ColorIterator
  | none => { input }
  | some (curStart, curEnd) => { input, curStart, curEnd }

def newColorIterator (input : GoString) : ColorIterator := .at input (findNextSequenceFrom input 0)

def ColorIterator.nextSequence (a : ColorIterator) : ColorIterator :=
  .at a.input (findNextSequenceFrom a.input a.curEnd)

/-- `visibleInputCharsIterator`. -/
structure VisibleIterator where
  inputSize : Nat
  inputIndex : Nat := 0
  visiblePos : Nat := 0
  ansiIter : ColorIterator

def newVisibleIterator (input : GoString) : VisibleIterator :=
  { inputSize := input.length, ansiIter := newColorIterator input }

def VisibleIterator.hasChar (v : VisibleIterator) : Bool := v.inputIndex < v.inputSize

def VisibleIterator.isVisible (v : VisibleIterator) : Bool :=
  !v.ansiIter.sequenceContains v.inputIndex

def VisibleIterator.nextChar (v : VisibleIterator) : VisibleIterator :=
  { v with
    visiblePos := if v.isVisible then v.visiblePos + 1 else v.visiblePos
    inputIndex := v.inputIndex + 1
    ansiIter :=
      if v.inputIndex + 1 = v.ansiIter.curEnd then v.ansiIter.nextSequence else v.ansiIter }

lemma findNextSequenceFrom_bounds {q : Nat × Nat} (h : findNextSequenceFrom input start = some q) :
    start ≤ q.1 ∧ q.1 < q.2 ∧ q.2 ≤ input.length := by
  fun_induction findNextSequenceFrom input start with
  | case1 => cases h
  | case2 => cases h
  | case3 start idx _ _ _ ih =>
    have := ih h
    omega
  | case4 => cases h
  | case5 start idx _ _ _ last c _ _ ih =>
    have := ih h
    omega
  | case6 start idx _ _ _ last c hlast =>
    obtain rfl := Option.some.inj h
    obtain ⟨hlt, -⟩ := List.getElem?_eq_some_iff.mp hlast
    refine ⟨Nat.le_add_right _ _, ?_, hlt⟩
    dsimp only [last]
    omega

def subtractSizes (a : ColorIterator) (visibleWidth : Nat) : Nat :=
  if a.hasSequence then subtractSizes a.nextSequence (visibleWidth - a.sequenceSize)
  else visibleWidth
termination_by if a.hasSequence then a.input.length - a.curEnd + 1 else 0
decreasing_by
  rename_i hseq
  rw [if_pos hseq]
  cases hfind : findNextSequenceFrom a.input a.curEnd with
  | none => simp [ColorIterator.nextSequence, hfind, ColorIterator.at, ColorIterator.hasSequence]
  | some q =>
    obtain ⟨h₁, h₂, h₃⟩ := findNextSequenceFrom_bounds hfind
    simp only [ColorIterator.nextSequence, hfind, ColorIterator.at]
    split <;> omega

/-- The first loop over the characters: up to a visible position. -/
def skipTo (gap : Nat) (v : VisibleIterator) : VisibleIterator :=
  if v.hasChar ∧ v.visiblePos ≠ gap then skipTo gap v.nextChar else v
termination_by v.inputSize - v.inputIndex
decreasing_by
  rename_i h
  have := of_decide_eq_true h.1
  simp only [VisibleIterator.nextChar]
  omega

def appendSequences (str : GoString) (gap : Nat) (v : VisibleIterator) (result : GoString) :
    VisibleIterator × GoString :=
  if v.hasChar ∧ v.visiblePos ≠ gap then
    appendSequences str gap v.nextChar
      (if v.isVisible then result else result ++ str[v.inputIndex]?.toList)
  else (v, result)
termination_by v.inputSize - v.inputIndex
decreasing_by
  rename_i h
  have := of_decide_eq_true h.1
  simp only [VisibleIterator.nextChar]
  omega

def elideMiddle (str : GoString) (maxWidth : Nat) : GoString :=
  if str.length ≤ maxWidth then
    str
  else if esc ∉ str then
    if maxWidth ≤ 3 then
      ("..." : GoString).take maxWidth
    else
      let remainingSize := maxWidth - 3
      let leftSpanSize := remainingSize / 2
      let rightSpanSize := remainingSize - leftSpanSize
      str.take leftSpanSize ++ "..." ++ str.drop (str.length - rightSpanSize)
  else
    let visibleWidth := subtractSizes (newColorIterator str) str.length
    if visibleWidth ≤ maxWidth then
      str
    else
      let ellipsisWidth := if maxWidth < 3 then maxWidth else 3
      let visibleLeftSpanSize := (maxWidth - ellipsisWidth) / 2
      let visibleRightSpanSize := (maxWidth - ellipsisWidth) - visibleLeftSpanSize
      let visibleGapStart := visibleLeftSpanSize
      let visibleGapEnd := visibleWidth - visibleRightSpanSize
      let iter := skipTo visibleGapStart (newVisibleIterator str)
      let left := str.take iter.inputIndex ++ ("..." : GoString).take ellipsisWidth
      let (iter, result) := appendSequences str visibleGapEnd iter left
      result ++ str.drop iter.inputIndex

/-! ### Visible bytes -/

def sequencesFrom (input : GoString) (start : Nat) : List (Nat × Nat) :=
  match _h : findNextSequenceFrom input start with
  | none => []
  | some q => q :: sequencesFrom input q.2
termination_by input.length - start
decreasing_by
  have := findNextSequenceFrom_bounds _h
  omega

def outside (qs : List (Nat × Nat)) (i : Nat) : Bool := qs.all fun q => !(q.1 ≤ i && i < q.2)

/-- The bytes of a text, each with whether it is visible. -/
def marked (input : GoString) : List (UInt8 × Bool) :=
  input.zipIdx.map fun (c, i) => (c, outside (sequencesFrom input 0) i)

def width (ms : List (UInt8 × Bool)) : Nat := ms.countP (·.2)

def bytes (ms : List (UInt8 × Bool)) : GoString := ms.map (·.1)

/-- What is left of a text of at most some visible bytes: the shortest start with the visible bytes
of the left side, the dots, the sequences of the gap, and the rest with the visible bytes of the
right side. -/
def IsElision (str : GoString) (maxWidth : Nat) (result : GoString) : Prop :=
  if width (marked str) ≤ maxWidth then
    result = str
  else
    let e := min 3 maxWidth
    let l := (maxWidth - e) / 2
    let r := (maxWidth - e) - l
    ∃ left gap right, marked str = left ++ gap ++ right ∧
      width left = l ∧ (∀ p, p <+: marked str → width p = l → left.length ≤ p.length) ∧
      width right = r ∧ width left + e + width right = maxWidth ∧
      result = bytes left ++ replicate e 46 ++ bytes (gap.filter (!·.2)) ++ bytes right

def takeVisible : Nat → List (UInt8 × Bool) → List (UInt8 × Bool)
  | 0, _ => []
  | _ + 1, [] => []
  | n + 1, m :: ms => m :: takeVisible (if m.2 then n else n + 1) ms

lemma takeVisible_isPrefix (n : Nat) (ms : List (UInt8 × Bool)) : takeVisible n ms <+: ms := by
  induction ms generalizing n with
  | nil => cases n <;> exact nil_prefix
  | cons m ms ih =>
    cases n with
    | zero => exact nil_prefix
    | succ n => exact prefix_cons_inj m |>.mpr (ih _)

lemma width_cons (m : UInt8 × Bool) (ms : List (UInt8 × Bool)) :
    width (m :: ms) = width ms + if m.2 then 1 else 0 := countP_cons

lemma width_append (ms ms' : List (UInt8 × Bool)) : width (ms ++ ms') = width ms + width ms' :=
  countP_append

lemma width_takeVisible (h : n ≤ width ms) : width (takeVisible n ms) = n := by
  induction ms generalizing n with
  | nil =>
    obtain rfl := Nat.le_zero.mp h
    rfl
  | cons m ms ih =>
    cases n with
    | zero => rfl
    | succ n =>
      rw [width_cons] at h
      rw [takeVisible, width_cons]
      split at h
      next hm => rw [if_pos hm, if_pos hm, ih (by omega)]
      next hm => rw [if_neg hm, if_neg hm, ih (by omega)]

lemma takeVisible_length_le {ms p : List (UInt8 × Bool)} (hp : p <+: ms) (hwidth : width p = n) :
    (takeVisible n ms).length ≤ p.length := by
  induction ms generalizing n p with
  | nil => cases n <;> simp [takeVisible]
  | cons m ms ih =>
    cases n with
    | zero => simp [takeVisible]
    | succ n =>
      cases p with
      | nil => cases hwidth
      | cons x p =>
        obtain ⟨rfl, htail⟩ := cons_prefix_cons.mp hp
        rw [takeVisible, length_cons, length_cons, Nat.add_le_add_iff_right]
        apply ih htail
        rw [width_cons] at hwidth
        split at hwidth
        next hm => rw [if_pos hm]; omega
        next hm => rw [if_neg hm]; omega

/-! ### The iterator over the characters -/

lemma sequencesFrom_none (h : findNextSequenceFrom input start = none) :
    sequencesFrom input start = [] := by
  rw [sequencesFrom]
  split
  next => rfl
  next q hq => cases h.symm.trans hq

lemma sequencesFrom_some {q : Nat × Nat} (h : findNextSequenceFrom input start = some q) :
    sequencesFrom input start = q :: sequencesFrom input q.2 := by
  rw [sequencesFrom]
  split
  next hq => cases h.symm.trans hq
  next q' hq =>
    obtain rfl := Option.some.inj (h.symm.trans hq)
    rfl

lemma outside_of_lt (input : GoString) {start i : Nat} (hi : i < start) :
    outside (sequencesFrom input start) i = true := by
  fun_induction sequencesFrom input start with
  | case1 => rfl
  | case2 start q h ih =>
    obtain ⟨h₁, h₂, -⟩ := findNextSequenceFrom_bounds h
    have htail := ih (by omega)
    rw [outside, all_cons, Bool.and_eq_true]
    refine ⟨?_, htail⟩
    simp only [Bool.not_eq_true', Bool.and_eq_false_iff, decide_eq_false_iff_not]
    omega

/-- The iterator is at the first sequence that does not end at or before its character. -/
structure Good (input : GoString) (v : VisibleIterator) : Prop where
  size : v.inputSize = input.length
  found : ∃ start, v.ansiIter = .at input (findNextSequenceFrom input start) ∧
    (∀ q, findNextSequenceFrom input start = some q → v.inputIndex < q.2) ∧
    ∀ i, v.inputIndex ≤ i →
      outside (sequencesFrom input 0) i = outside (sequencesFrom input start) i

lemma Good.new : Good input (newVisibleIterator input) where
  size := rfl
  found := by
    refine ⟨0, rfl, fun q hq => ?_, fun _ _ => rfl⟩
    have := findNextSequenceFrom_bounds hq
    change 0 < q.2
    omega

lemma outside_cons (q : Nat × Nat) (qs : List (Nat × Nat)) (i : Nat) :
    outside (q :: qs) i = (!(decide (q.1 ≤ i) && decide (i < q.2)) && outside qs i) := rfl

lemma Good.isVisible (h : Good input v) :
    v.isVisible = outside (sequencesFrom input 0) v.inputIndex := by
  obtain ⟨start, hiter, hend, hsame⟩ := h.found
  rw [hsame _ (Nat.le_refl _), VisibleIterator.isVisible, hiter]
  cases hfind : findNextSequenceFrom input start with
  | none =>
    simp [sequencesFrom_none hfind, outside, ColorIterator.at, ColorIterator.sequenceContains]
  | some q =>
    rw [sequencesFrom_some hfind, outside_cons, outside_of_lt input (hend q hfind), Bool.and_true]
    rfl

lemma Good.nextChar (h : Good input v) : Good input v.nextChar := by
  obtain ⟨start, hiter, hend, hsame⟩ := h.found
  refine ⟨h.size, ?_⟩
  simp only [VisibleIterator.nextChar, hiter]
  cases hfind : findNextSequenceFrom input start with
  | none =>
    refine ⟨start, ?_, fun q hq => (by cases hfind.symm.trans hq), fun i hi => hsame i (by omega)⟩
    rw [if_neg (by simp [ColorIterator.at]), hfind]
  | some q =>
    have hlt := hend q hfind
    by_cases hlast : v.inputIndex + 1 = q.2
    · -- the sequence ends here
      refine ⟨q.2, if_pos hlast, fun q' hq' => ?_, fun i hi => ?_⟩
      · have := findNextSequenceFrom_bounds hq'
        omega
      · rw [hsame i (by omega), sequencesFrom_some hfind, outside_cons,
          decide_eq_false (show ¬ i < q.2 by omega), Bool.and_false, Bool.not_false, Bool.true_and]
    · refine ⟨start, ?_, fun q' hq' => ?_, fun i hi => hsame i (by omega)⟩
      · rw [hfind]
        exact if_neg hlast
      · obtain rfl := Option.some.inj (hfind.symm.trans hq')
        omega

lemma drop_marked {i : Nat} (hi : i < input.length) : (marked input).drop i =
      (input[i], outside (sequencesFrom input 0) i) :: (marked input).drop (i + 1) := by
  rw [drop_eq_getElem_cons (by simpa [marked] using hi)]
  simp [marked]

lemma length_marked (input : GoString) : (marked input).length = input.length := by simp [marked]

lemma bytes_marked (input : GoString) : bytes (marked input) = input := by
  simp only [bytes, marked, map_map]
  exact zipIdx_map_fst 0 input

lemma skipTo_of_eq (v : VisibleIterator) : skipTo v.visiblePos v = v := by
  rw [skipTo, if_neg fun h => h.2 rfl]

lemma appendSequences_of_eq (str : GoString) (v : VisibleIterator) (result : GoString) :
    appendSequences str v.visiblePos v result = (v, result) := by
  rw [appendSequences, if_neg fun h => h.2 rfl]

/-- The first loop passes the shortest stretch with the visible bytes that are missing. The second
loop does so too, and appends what is not visible there. -/
lemma Good.walk (h : Good input v) (gap : Nat) (hle : v.visiblePos ≤ gap)
    (hms : ms = (marked input).drop v.inputIndex) (hwidth : gap - v.visiblePos ≤ width ms) :
    Good input (skipTo gap v) ∧ (skipTo gap v).visiblePos = gap ∧
      (skipTo gap v).inputIndex =
        v.inputIndex + (takeVisible (gap - v.visiblePos) ms).length ∧
      ∀ result, appendSequences input gap v result = (skipTo gap v,
        result ++ bytes ((takeVisible (gap - v.visiblePos) ms).filter (!·.2))) := by
  induction ms generalizing v with
  | nil =>
    obtain rfl : v.visiblePos = gap := by
      simp only [width, countP_nil] at hwidth
      omega
    simp [skipTo_of_eq, appendSequences_of_eq, h, takeVisible, bytes]
  | cons m ms ih =>
    by_cases hstop : v.visiblePos = gap
    · subst hstop
      simp [skipTo_of_eq, appendSequences_of_eq, h, takeVisible, bytes]
    have hi : v.inputIndex < input.length := by
      by_contra hlen
      rw [drop_eq_nil_of_le (by rw [length_marked]; omega)] at hms
      cases hms
    have hmove : v.hasChar ∧ v.visiblePos ≠ gap :=
      ⟨by simpa [VisibleIterator.hasChar, h.size] using hi, hstop⟩
    obtain ⟨rfl, rfl⟩ := cons.inj (hms.trans (drop_marked hi))
    have hpos : v.nextChar.visiblePos =
        if outside (sequencesFrom input 0) v.inputIndex then v.visiblePos + 1
        else v.visiblePos := by
      rw [← h.isVisible]
      rfl
    obtain ⟨n, hn⟩ : ∃ n, gap - v.visiblePos = n + 1 := ⟨gap - v.visiblePos - 1, by omega⟩
    have hrest : gap - v.nextChar.visiblePos =
        if outside (sequencesFrom input 0) v.inputIndex then n else n + 1 := by
      rw [hpos]
      split <;> omega
    have hnext : v.nextChar.visiblePos ≤ gap := by
      rw [hpos]
      split <;> omega
    rw [hn, width_cons] at hwidth
    obtain ⟨hgood, hgap, hindex, hresult⟩ := ih h.nextChar hnext rfl (by
      rw [hrest]
      split at hwidth <;> simp_all)
    rw [skipTo, if_pos hmove, hn, takeVisible]
    refine ⟨hgood, hgap, ?_, fun result => ?_⟩
    · rw [hindex, hrest, length_cons]
      simp only [VisibleIterator.nextChar]
      omega
    · rw [appendSequences, if_pos hmove, hresult, hrest, h.isVisible]
      cases hv : outside (sequencesFrom input 0) v.inputIndex with
      | true => simp
      | false => simp [bytes, hi]

def sizes (qs : List (Nat × Nat)) : Nat := (qs.map fun q => q.2 - q.1).sum

lemma subtractSizes_at (input : GoString) (start visibleWidth : Nat) :
    subtractSizes (.at input (findNextSequenceFrom input start)) visibleWidth =
      visibleWidth - sizes (sequencesFrom input start) := by
  fun_induction sequencesFrom input start generalizing visibleWidth with
  | case1 start h => simp [h, ColorIterator.at, subtractSizes, ColorIterator.hasSequence, sizes]
  | case2 start q h ih =>
    have hne : q.2 ≠ 0 := by
      have := findNextSequenceFrom_bounds h
      omega
    rw [h, subtractSizes, if_pos (show (ColorIterator.at input (some q)).hasSequence = true from
      decide_eq_true hne)]
    change
      subtractSizes (.at input (findNextSequenceFrom input q.2)) (visibleWidth - (q.2 - q.1)) = _
    rw [ih, sizes, sizes, map_cons, sum_cons, Nat.sub_sub]

/-- The positions between two are those in front of a sequence, in it and behind it. -/
lemma range'_split {start s e n : Nat} (h₁ : start ≤ s) (h₂ : s ≤ e) (h₃ : e ≤ n) :
    range' start (n - start) =
      range' start (s - start) ++ (range' s (e - s) ++ range' e (n - e)) := by
  obtain ⟨a, rfl⟩ := Nat.exists_eq_add_of_le h₁
  obtain ⟨b, rfl⟩ := Nat.exists_eq_add_of_le h₂
  obtain ⟨c, rfl⟩ := Nat.exists_eq_add_of_le h₃
  rw [Nat.add_sub_cancel_left, Nat.add_sub_cancel_left, Nat.add_sub_cancel_left,
    range'_append_1, range'_append_1]
  congr 1
  omega

lemma countP_outside (input : GoString) (hle : start ≤ input.length) :
    (range' start (input.length - start)).countP (outside (sequencesFrom input start)) +
      sizes (sequencesFrom input start) = input.length - start := by
  fun_induction sequencesFrom input start with
  | case1 start h =>
    have hall : ∀ i ∈ range' start (input.length - start), outside [] i = true :=
      fun _ _ => rfl
    rw [countP_eq_length.mpr hall]
    simp [sizes]
  | case2 start q h ih =>
    obtain ⟨h₁, h₂, h₃⟩ := findNextSequenceFrom_bounds h
    have hbefore : (range' start (q.1 - start)).countP
        (outside (q :: sequencesFrom input q.2)) = q.1 - start := by
      rw [countP_eq_length.mpr, length_range']
      intro i hi
      have := mem_range'_1.mp hi
      rw [outside_cons, outside_of_lt input (by omega), decide_eq_false (by omega)]
      rfl
    have hinside : (range' q.1 (q.2 - q.1)).countP
        (outside (q :: sequencesFrom input q.2)) = 0 := by
      rw [countP_eq_zero]
      intro i hi
      have := mem_range'_1.mp hi
      rw [outside_cons, decide_eq_true (by omega), decide_eq_true (by omega)]
      simp
    have hbehind : (range' q.2 (input.length - q.2)).countP
        (outside (q :: sequencesFrom input q.2)) =
        (range' q.2 (input.length - q.2)).countP (outside (sequencesFrom input q.2)) := by
      apply countP_congr
      intro i hi
      have := mem_range'_1.mp hi
      rw [outside_cons, decide_eq_false (show ¬ i < q.2 by omega)]
      simp
    have hrest := ih h₃
    rw [range'_split h₁ (Nat.le_of_lt h₂) h₃, countP_append, countP_append, hbefore,
      hinside, hbehind]
    simp only [sizes, map_cons, sum_cons] at hrest ⊢
    omega

/-- The width that is computed is the number of visible bytes. -/
lemma subtractSizes_new (input : GoString) :
    subtractSizes (newColorIterator input) input.length = width (marked input) := by
  have hwidth : width (marked input) =
      (range' 0 input.length).countP (outside (sequencesFrom input 0)) := by
    rw [width, marked, countP_map, ← zipIdx_map_snd 0 input, countP_map]
    rfl
  have hcount := countP_outside input (Nat.zero_le _)
  rw [newColorIterator, subtractSizes_at, hwidth]
  rw [Nat.sub_zero] at hcount
  omega

/-! ### The result -/

lemma take_dots (n : Nat) : ("..." : GoString).take n = replicate (min 3 n) 46 := by
  have hdots : ("..." : GoString) = replicate 3 46 := by decide +kernel
  rw [hdots, take_replicate, Nat.min_comm]

lemma marked_of_esc_notMem (h : esc ∉ str) : marked str = str.map fun c => (c, true) := by
  have hfind : findNextSequenceFrom str 0 = none := by
    have hnone : (str.drop 0).findIdx? (· = esc) = none := by
      rw [drop_zero, findIdx?_eq_none_iff]
      intro c hc
      exact decide_eq_false fun heq => h (heq ▸ hc)
    rw [findNextSequenceFrom, hnone]
  rw [marked, sequencesFrom_none hfind]
  have hmap := congrArg (map fun c => (c, true)) (zipIdx_map_fst 0 str)
  rw [map_map] at hmap
  exact hmap

lemma width_visible (str : GoString) : width (str.map fun c => (c, true)) = str.length := by
  simp [width, Function.comp_def]

lemma bytes_drop (str : GoString) (n : Nat) : bytes ((marked str).drop n) = str.drop n := by
  rw [bytes, map_drop]
  exact congrArg _ (bytes_marked str)

lemma bytes_takeVisible (str : GoString) (n : Nat) :
    bytes (takeVisible n (marked str)) = str.take (takeVisible n (marked str)).length := by
  nth_rewrite 1 [prefix_iff_eq_take.mp (takeVisible_isPrefix n (marked str))]
  rw [bytes, map_take]
  exact congrArg _ (bytes_marked str)

/-- The text with a stretch of visible bytes behind a shortest start replaced by dots. -/
def shown (ms : List (UInt8 × Bool)) (l dropped e : Nat) : GoString :=
  let rest := ms.drop (takeVisible l ms).length
  let gap := takeVisible dropped rest
  bytes (takeVisible l ms) ++ replicate e 46 ++ bytes (gap.filter (!·.2)) ++
    bytes (rest.drop gap.length)

lemma append_drop_takeVisible (n : Nat) (ms : List (UInt8 × Bool)) :
    takeVisible n ms ++ ms.drop (takeVisible n ms).length = ms := by
  obtain ⟨rest, hrest⟩ := takeVisible_isPrefix n ms
  have hdrop : (takeVisible n ms ++ rest).drop (takeVisible n ms).length = rest := drop_left
  rw [hrest] at hdrop
  rw [hdrop, hrest]

lemma width_drop_takeVisible (h : n ≤ width ms) :
    width (ms.drop (takeVisible n ms).length) = width ms - n := by
  have hsum := congrArg width (append_drop_takeVisible n ms)
  rw [width_append, width_takeVisible h] at hsum
  omega

section

variable {str : GoString} {maxWidth e l r : Nat} (he : e = min 3 maxWidth)
  (hl : l = (maxWidth - e) / 2) (hr : r = (maxWidth - e) - l)

include he hl hr

lemma isElision_shown (hwide : maxWidth < width (marked str)) :
    IsElision str maxWidth (shown (marked str) l (width (marked str) - r - l) e) := by
  rw [IsElision, if_neg (by omega)]
  simp only [← he, ← hl, ← hr]
  have hleft : l ≤ width (marked str) := by omega
  have hrest := width_drop_takeVisible hleft
  refine ⟨_, _, _, ?_, width_takeVisible hleft, fun p hp => takeVisible_length_le hp, ?_, ?_, rfl⟩
  · rw [append_assoc, append_drop_takeVisible, append_drop_takeVisible]
  · rw [width_drop_takeVisible (by omega)]
    omega
  · rw [width_takeVisible hleft, width_drop_takeVisible (by omega)]
    omega

end

lemma takeVisible_visible (n : Nat) (str : GoString) :
    takeVisible n (str.map fun c => (c, true)) = (str.take n).map fun c => (c, true) := by
  induction str generalizing n with
  | nil => cases n <;> rfl
  | cons c str ih =>
    cases n with
    | zero => rfl
    | succ n => simp [takeVisible, ih]

lemma shown_visible {l r e : Nat} (h : l + r ≤ str.length) :
    shown (str.map fun c => (c, true)) l (str.length - r - l) e =
      str.take l ++ replicate e 46 ++ str.drop (str.length - r) := by
  have hlen : (str.take l).length = l := by
    rw [length_take]
    omega
  have hfilter : ∀ gap : GoString, (gap.map fun c => (c, true)).filter (!·.2) = [] := by
    simp
  have hdrop : str.length - r = l + (str.length - r - l) := by omega
  simp only [shown, takeVisible_visible, length_map, hlen, ← map_drop, hfilter,
    bytes, map_map, map_nil, append_nil, length_take, length_drop]
  rw [drop_drop, Nat.min_eq_left (by omega), ← hdrop]
  simp [Function.comp_def]

lemma elideMiddle_isElision_plain {maxWidth : Nat} (hwide : maxWidth < str.length) (h : esc ∉ str) :
    IsElision str maxWidth (elideMiddle str maxWidth) := by
  have hmarked := marked_of_esc_notMem h
  have hwidth : width (marked str) = str.length := by rw [hmarked, width_visible]
  have hshown := isElision_shown rfl rfl rfl
    (show maxWidth < width (marked str) from hwidth ▸ hwide)
  rw [hwidth, hmarked, shown_visible (by omega)] at hshown
  convert hshown using 1
  rw [elideMiddle, if_neg (by omega), if_pos h]
  by_cases hsmall : maxWidth ≤ 3
  · rw [if_pos hsmall, take_dots, Nat.min_eq_right hsmall, Nat.sub_self]
    simp
  · have hdots := take_dots 3
    rw [if_neg hsmall, Nat.min_eq_left (by omega)]
    rw [take_of_length_le (by decide +kernel), Nat.min_self] at hdots
    rw [hdots]

/-- The elision keeps the width and the colours, on the fast path as on the other. -/
theorem elideMiddle_isElision (str : GoString) (maxWidth : Nat) :
    IsElision str maxWidth (elideMiddle str maxWidth) := by
  by_cases hshort : str.length ≤ maxWidth
  · have hwidth : width (marked str) ≤ maxWidth :=
      Nat.le_trans (length_marked str ▸ countP_le_length) hshort
    rw [IsElision, if_pos hwidth, elideMiddle, if_pos hshort]
  by_cases hesc : esc ∉ str
  · exact elideMiddle_isElision_plain (by omega) hesc
  rw [elideMiddle, if_neg hshort, if_neg hesc]
  simp only [subtractSizes_new]
  by_cases hwidth : width (marked str) ≤ maxWidth
  · rw [IsElision, if_pos hwidth, if_pos hwidth]
  rw [if_neg hwidth]
  have hshown := isElision_shown rfl rfl rfl (Nat.lt_of_not_le hwidth)
  convert hshown using 1
  have he : (if maxWidth < 3 then maxWidth else 3) = min 3 maxWidth := by
    split <;> omega
  simp only [he, take_dots]
  set e := min 3 maxWidth
  set l := (maxWidth - e) / 2
  set r := maxWidth - e - l
  have hl : l ≤ width (marked str) := by omega
  obtain ⟨hgood, hpos, hstart, -⟩ := Good.new.walk l (Nat.zero_le _) rfl hl
  have hindex : (skipTo l (newVisibleIterator str)).inputIndex =
      (takeVisible l (marked str)).length := hstart.trans (Nat.zero_add _)
  have hrest := width_drop_takeVisible hl
  rw [← hindex] at hrest
  obtain ⟨-, -, hindex', hresult⟩ := hgood.walk (width (marked str) - r) (by omega) rfl (by omega)
  rw [hindex, hpos] at hindex' hresult
  rw [hresult, hindex', hindex, shown, drop_drop, bytes_drop, bytes_takeVisible,
    Nat.min_eq_right (Nat.min_le_left 3 maxWidth)]

end Reninja.ElideMiddle
