import Reninja.Depfile.Scanner
import Reninja.Library.Lexing

/-!
# The patterns of depfiles

The rules of the scanner as they are listed, each a regular expression, and the longest match of
one of them at the front of a text. The generated scanner takes the same match.
-/

namespace Reninja.Depfile

open Lexing RegularExpression Pattern

variable {u : GoString} {k : Nat} {t : GoString} {c : UInt8} {x : GoString} {p : Pattern} {i : Nat}

def bytes (lo hi : Nat) : List UInt8 := (List.range' lo (hi + 1 - lo)).map UInt8.ofNat

/-- `[a-zA-Z0-9+?"'&,/_:.~()}{%=@\x5B\x5D!\x80-\xFF-]` -/
def plainBytes : List UInt8 :=
  bytes 97 122 ++ bytes 65 90 ++ bytes 48 57 ++
    [43, 63, 34, 39, 38, 44, 47, 95, 58, 46, 126, 40, 41, 125, 123, 37, 61, 64, 91, 93, 33] ++
    bytes 128 255 ++ [45]

/-- `'\r'?'\n'` -/
def newlineRegex : RegularExpression UInt8 := literal [10] + literal [13, 10]

def Pattern.regex : Pattern → RegularExpression UInt8
  | .oddSpace => (literal [92, 92]).star * literal [92, 32]
  | .evenSpace => many (literal [92, 92]) * literal [32]
  | .hash => many (literal [92]) * literal [35]
  | .colonEnd => many (literal [92]) * (literal [58] * oneOf [0, 32, 13, 10, 9])
  | .colon => many (literal [92]) * literal [58]
  | .dollar => literal [36, 36]
  | .text => many (literal [92]) * oneOf ((bytes 0 255).filter (· ∉ [0, 13, 10])) +
      many (oneOf plainBytes)
  | .nul => literal [0]
  | .continuation => literal [92] * newlineRegex
  | .newline => newlineRegex
  | .other => oneOf (bytes 0 255)

def Pattern.all : List Pattern :=
  [.oddSpace, .evenSpace, .hash, .colonEnd, .colon, .dollar, .text, .nul, .continuation, .newline,
    .other]

def rules : List (Pattern × RegularExpression UInt8) := all.map fun p => (p, p.regex)

/-- The longest match at the front of a text, behind whose end there is a NUL byte. -/
def listedMatch (s : GoString) : Option (Pattern × Nat) :=
  longestMatch rules (s ++ [0]) (s.length + 1)

/-! ### Words of the patterns -/

def Pattern.fits (k : Nat) (u : GoString) : Pattern → Bool
  | .oddSpace => k % 2 = 1 ∧ u = [32]
  | .evenSpace => 0 < k ∧ k % 2 = 0 ∧ u = [32]
  | .hash => 0 < k ∧ u = [35]
  | .colonEnd => 0 < k ∧ u.head? = some 58 ∧ u.length = 2 ∧ endsTarget (peek u.tail)
  | .colon => 0 < k ∧ u = [58]
  | .dollar => k = 0 ∧ u = [36, 36]
  | .text => 0 < k ∧ u.length = 1 ∧ peek u ≠ 0 ∧ peek u ≠ 10 ∧ peek u ≠ 13 ∨
      2 ≤ k ∧ u = [] ∨ k = 0 ∧ u ≠ [] ∧ u.all isPlain
  | .nul => k = 0 ∧ u = [0]
  | .continuation => k = 1 ∧ (u = [10] ∨ u = [13, 10])
  | .newline => k = 0 ∧ (u = [10] ∨ u = [13, 10])
  | .other => k = 1 ∧ u = [] ∨ k = 0 ∧ u.length = 1

/-- The number of backslashes in front of a text is determined by it. -/
lemma backslashes_append_inj {k j : Nat} {u v : GoString} (hu : u.head? ≠ some 92)
    (hv : v.head? ≠ some 92) :
    backslashes k ++ u = backslashes j ++ v ↔ k = j ∧ u = v := by
  constructor
  · intro h
    induction k generalizing j with
    | zero =>
      cases j with
      | zero => exact ⟨rfl, h⟩
      | succ j => exact absurd (by rw [show u = backslashes (j + 1) ++ v from h]; rfl) hu
    | succ k ih =>
      cases j with
      | zero => exact absurd (by rw [← show backslashes (k + 1) ++ u = v from h]; rfl) hv
      | succ j =>
        rw [backslashes_succ, backslashes_succ, List.cons_append, List.cons_append] at h
        obtain ⟨rfl, rfl⟩ := ih (List.cons.inj h).2
        exact ⟨rfl, rfl⟩
  · rintro ⟨rfl, rfl⟩
    rfl

lemma backslashes_append_eq_iff {u w : GoString} (hu : u.head? ≠ some 92) (hw : w.head? ≠ some 92) :
    backslashes k ++ u = w ↔ k = 0 ∧ u = w :=
  backslashes_append_inj (j := 0) hu hw

lemma flatten_backslash (n : Nat) : (List.replicate n [(92 : UInt8)]).flatten = backslashes n := by
  induction n with
  | zero => rfl
  | succ n ih => rw [List.replicate_succ, List.flatten_cons, ih, backslashes_succ]; rfl

lemma flatten_backslash_two (n : Nat) :
    (List.replicate n [(92 : UInt8), 92]).flatten = backslashes (2 * n) := by
  induction n with
  | zero => rfl
  | succ n ih =>
    rw [List.replicate_succ, List.flatten_cons, ih, Nat.mul_succ, backslashes_succ,
      backslashes_succ]
    rfl

lemma mem_backslashes_mul {P : RegularExpression UInt8} : x ∈ (many (literal [92]) * P).matches' ↔
      ∃ n v, v ∈ P.matches' ∧ x = backslashes (n + 1) ++ v := by
  rw [matches'_mul, Language.mem_mul]
  constructor
  · rintro ⟨y, hy, v, hv, rfl⟩
    obtain ⟨n, rfl⟩ := mem_many_literal.mp hy
    exact ⟨n, v, hv, by rw [flatten_backslash]⟩
  · rintro ⟨n, v, hv, rfl⟩
    exact ⟨_, mem_many_literal.mpr ⟨n, rfl⟩, v, hv, by rw [flatten_backslash]⟩

lemma mem_bytes_iff {lo hi : Nat} (hhi : hi < 256) :
    c ∈ bytes lo hi ↔ lo ≤ c.toNat ∧ c.toNat ≤ hi := by
  constructor
  · intro hc
    obtain ⟨n, hn, rfl⟩ := List.mem_map.mp hc
    rw [List.mem_range'_1] at hn
    rw [UInt8.toNat_ofNat_of_lt' (show n < 256 by omega)]
    omega
  · intro hc
    exact List.mem_map.mpr ⟨c.toNat, List.mem_range'_1.mpr (by omega), UInt8.ofNat_toNat⟩

lemma mem_bytes (c : UInt8) : c ∈ bytes 0 255 :=
  (mem_bytes_iff (by decide)).mpr ⟨Nat.zero_le _, Nat.le_of_lt_succ c.toNat_lt⟩

lemma mem_plainBytes (c : UInt8) : c ∈ plainBytes ↔ isPlain c = true := by
  have hc : c.toNat < 256 := c.toNat_lt
  simp only [plainBytes, isPlain, List.mem_append, List.mem_cons, List.not_mem_nil, or_false,
    mem_bytes_iff, Nat.reduceLT, Nat.lt_add_one, ← UInt8.toNat_inj, UInt8.lt_iff_toNat_lt,
    UInt8.reduceToNat, ne_eq, decide_not, Bool.and_eq_true, decide_eq_true_eq,
    Bool.not_eq_eq_eq_not, Bool.not_true, decide_eq_false_iff_not]
  omega

lemma exists_backslashes_append_iff (hu : u.head? ≠ some 92) {P : RegularExpression UInt8}
    (hP : ∀ v ∈ P.matches', v.head? ≠ some 92) :
    backslashes k ++ u ∈ (many (literal [92]) * P).matches' ↔ 0 < k ∧ u ∈ P.matches' := by
  rw [mem_backslashes_mul]
  constructor
  · rintro ⟨n, v, hv, h⟩
    obtain ⟨rfl, rfl⟩ := (backslashes_append_inj hu (hP v hv)).mp h
    exact ⟨Nat.succ_pos n, hv⟩
  · rintro ⟨hk, hv⟩
    exact ⟨k - 1, u, hv, by rw [Nat.sub_add_cancel hk]⟩

lemma mem_newlineRegex : x ∈ newlineRegex.matches' ↔ x = [10] ∨ x = [13, 10] := by
  rw [newlineRegex, matches'_add, Language.mem_add, mem_literal, mem_literal]

lemma mem_oddSpace (hu : u.head? ≠ some 92) :
    backslashes k ++ u ∈ oddSpace.regex.matches' ↔ k % 2 = 1 ∧ u = [32] := by
  rw [regex, matches'_mul, Language.mem_mul]
  constructor
  · rintro ⟨y, hy, z, hz, h⟩
    obtain ⟨n, rfl⟩ := mem_literal_star.mp hy
    obtain rfl := mem_literal.mp hz
    have hrun : backslashes k ++ u = backslashes (2 * n + 1) ++ [32] := by
      rw [← h, flatten_backslash_two, backslashes_succ', List.append_assoc]
      rfl
    obtain ⟨rfl, rfl⟩ := (backslashes_append_inj hu (by decide)).mp hrun
    exact ⟨by omega, rfl⟩
  · rintro ⟨hk, rfl⟩
    refine ⟨_, mem_literal_star.mpr ⟨k / 2, rfl⟩, _, mem_literal.mpr rfl, ?_⟩
    have hrun : backslashes k = backslashes (2 * (k / 2)) ++ [92] := by
      rw [← backslashes_succ', show 2 * (k / 2) + 1 = k by omega]
    rw [flatten_backslash_two, hrun, List.append_assoc]
    rfl

lemma mem_evenSpace (hu : u.head? ≠ some 92) :
    backslashes k ++ u ∈ evenSpace.regex.matches' ↔ 0 < k ∧ k % 2 = 0 ∧ u = [32] := by
  rw [regex, matches'_mul, Language.mem_mul]
  constructor
  · rintro ⟨y, hy, z, hz, h⟩
    obtain ⟨n, rfl⟩ := mem_many_literal.mp hy
    obtain rfl := mem_literal.mp hz
    rw [flatten_backslash_two] at h
    obtain ⟨rfl, rfl⟩ := (backslashes_append_inj hu (by decide)).mp h.symm
    exact ⟨by omega, by omega, rfl⟩
  · rintro ⟨hpos, hk, rfl⟩
    refine ⟨_, mem_many_literal.mpr ⟨k / 2 - 1, rfl⟩, _, mem_literal.mpr rfl, ?_⟩
    rw [flatten_backslash_two, show 2 * (k / 2 - 1 + 1) = k by omega]

lemma mem_text (hu : u.head? ≠ some 92) : backslashes k ++ u ∈ text.regex.matches' ↔
      0 < k ∧ u.length = 1 ∧ peek u ≠ 0 ∧ peek u ≠ 10 ∧ peek u ≠ 13 ∨
        2 ≤ k ∧ u = [] ∨ k = 0 ∧ u ≠ [] ∧ u.all isPlain := by
  rw [regex, matches'_add, Language.mem_add, mem_backslashes_mul, mem_many_oneOf]
  constructor
  · rintro (⟨n, v, hv, h⟩ | ⟨hne, hall⟩)
    · obtain ⟨c, hc, rfl⟩ := mem_oneOf.mp hv
      have hbytes : c ≠ 0 ∧ c ≠ 13 ∧ c ≠ 10 := by simpa using (List.mem_filter.mp hc).2
      by_cases h92 : c = 92
      · have hrun : backslashes k ++ u = backslashes (n + 2) ++ [] := by
          rw [h, h92, ← backslashes_succ', List.append_nil]
        obtain ⟨rfl, rfl⟩ := (backslashes_append_inj hu (by simp)).mp hrun
        exact .inr (.inl ⟨by omega, rfl⟩)
      · obtain ⟨rfl, rfl⟩ := (backslashes_append_inj hu (by simpa using h92)).mp h
        exact .inl ⟨by omega, rfl, hbytes.1, hbytes.2.2, hbytes.2.1⟩
    · cases k with
      | zero => exact .inr (.inr ⟨rfl, hne, by
          simpa [mem_plainBytes, backslashes] using hall⟩)
      | succ k =>
        have := (mem_plainBytes 92).mp (hall 92 (by simp [backslashes_succ]))
        exact absurd this (by decide)
  · rintro (⟨hk, hlen, h0, h10, h13⟩ | ⟨hk, rfl⟩ | ⟨rfl, hne, hall⟩)
    · obtain ⟨c, rfl⟩ := List.length_eq_one_iff.mp hlen
      refine .inl ⟨k - 1, [c], mem_oneOf.mpr ⟨c, List.mem_filter.mpr ⟨mem_bytes c, ?_⟩, rfl⟩, ?_⟩
      · simpa using ⟨h0, h13, h10⟩
      · rw [Nat.sub_add_cancel hk]
    · refine .inl ⟨k - 2, [92], mem_oneOf.mpr ⟨92, List.mem_filter.mpr ⟨mem_bytes 92, ?_⟩, rfl⟩, ?_⟩
      · decide
      · rw [← backslashes_succ', List.append_nil, show k - 2 + 1 + 1 = k by omega]
    · refine .inr ⟨hne, ?_⟩
      simpa [mem_plainBytes, backslashes] using hall

lemma mem_colonEnd (v : GoString) :
    v ∈ (literal [(58 : UInt8)] * oneOf [0, 32, 13, 10, 9]).matches' ↔
      v.head? = some 58 ∧ v.length = 2 ∧ endsTarget (peek v.tail) = true := by
  rw [matches'_mul, Language.mem_mul]
  constructor
  · rintro ⟨y, hy, z, hz, rfl⟩
    obtain rfl := mem_literal.mp hy
    obtain ⟨c, hc, rfl⟩ := mem_oneOf.mp hz
    refine ⟨rfl, rfl, ?_⟩
    simp only [List.mem_cons, List.not_mem_nil, or_false] at hc
    rcases hc with rfl | rfl | rfl | rfl | rfl <;> rfl
  · rintro ⟨hhead, hlen, hend⟩
    obtain ⟨a, c, rfl⟩ := List.length_eq_two.mp hlen
    obtain rfl : a = 58 := by simpa using hhead
    refine ⟨[58], mem_literal.mpr rfl, [c], mem_oneOf.mpr ⟨c, ?_, rfl⟩, rfl⟩
    simp [endsTarget, peek] at hend
    simp
    tauto

lemma mem_continuation :
    x ∈ (literal [92] * newlineRegex).matches' ↔ x = [92, 10] ∨ x = [92, 13, 10] := by
  rw [matches'_mul, Language.mem_mul]
  constructor
  · rintro ⟨y, hy, z, hz, rfl⟩
    obtain rfl := mem_literal.mp hy
    exact (mem_newlineRegex.mp hz).imp (congrArg _) (congrArg _)
  · rintro (rfl | rfl)
    · exact ⟨[92], mem_literal.mpr rfl, [10], mem_newlineRegex.mpr (.inl rfl), rfl⟩
    · exact ⟨[92], mem_literal.mpr rfl, [13, 10], mem_newlineRegex.mpr (.inr rfl), rfl⟩

lemma mem_other (hu : u.head? ≠ some 92) : backslashes k ++ u ∈ other.regex.matches' ↔
      k = 1 ∧ u = [] ∨ k = 0 ∧ u.length = 1 := by
  rw [regex, mem_oneOf]
  constructor
  · rintro ⟨c, -, h⟩
    by_cases h92 : c = 92
    · rw [h92] at h
      exact .inl ((backslashes_append_inj hu (j := 1) (v := []) (by simp)).mp h)
    · obtain ⟨rfl, rfl⟩ := (backslashes_append_eq_iff hu (by simpa using h92)).mp h
      exact .inr ⟨rfl, rfl⟩
  · rintro (⟨rfl, rfl⟩ | ⟨rfl, hlen⟩)
    · exact ⟨92, mem_bytes 92, rfl⟩
    · obtain ⟨c, rfl⟩ := List.length_eq_one_iff.mp hlen
      exact ⟨c, mem_bytes c, rfl⟩

lemma rmatch_eq_fits (p : Pattern) (hu : u.head? ≠ some 92) :
    p.regex.rmatch (backslashes k ++ u) = p.fits k u := by
  rw [Bool.eq_iff_iff, rmatch_iff_matches']
  cases p with
  | oddSpace => rw [mem_oddSpace hu, fits, decide_eq_true_iff]
  | evenSpace => rw [mem_evenSpace hu, fits, decide_eq_true_iff]
  | text => rw [mem_text hu, fits, decide_eq_true_iff]
  | hash =>
    rw [regex, exists_backslashes_append_iff hu (by simp), mem_literal, fits,
      decide_eq_true_iff]
  | colon =>
    rw [regex, exists_backslashes_append_iff hu (by simp), mem_literal, fits,
      decide_eq_true_iff]
  | colonEnd =>
    rw [regex, exists_backslashes_append_iff hu, mem_colonEnd, fits,
      decide_eq_true_iff]
    intro v hv
    rw [((mem_colonEnd v).mp hv).1]
    decide
  | dollar =>
    rw [regex, mem_literal, backslashes_append_eq_iff hu (by decide), fits,
      decide_eq_true_iff]
  | nul =>
    rw [regex, mem_literal, backslashes_append_eq_iff hu (by decide), fits,
      decide_eq_true_iff]
  | continuation =>
    rw [regex, mem_continuation, fits, decide_eq_true_iff,
      show ([92, 10] : GoString) = backslashes 1 ++ [10] from rfl,
      show ([92, 13, 10] : GoString) = backslashes 1 ++ [13, 10] from rfl,
      backslashes_append_inj hu (by decide), backslashes_append_inj hu (by decide), ← and_or_left]
  | newline =>
    rw [regex, mem_newlineRegex, fits, decide_eq_true_iff,
      backslashes_append_eq_iff hu (by decide), backslashes_append_eq_iff hu (by decide),
      ← and_or_left]
  | other => rw [mem_other hu, fits, decide_eq_true_iff]

/-! ### The longest match -/

def ruleForRun (k : Nat) (u : GoString) : Option Pattern := all.find? (fits k u)

lemma ruleFor_rules (hu : u.head? ≠ some 92) :
    ruleFor rules (backslashes k ++ u) = ruleForRun k u := by
  have hfits : ((fun r : Pattern × RegularExpression UInt8 => r.2.rmatch (backslashes k ++ u)) ∘
      fun p => (p, p.regex)) = fits k u := funext fun p => rmatch_eq_fits p hu
  rw [ruleFor, rules, List.find?_map, hfits, Option.map_map, ruleForRun]
  cases all.find? (fits k u) <;> rfl

lemma take_backslashes_append (k m : Nat) (t : GoString) :
    (backslashes k ++ t).take m = backslashes (min m k) ++ t.take (m - k) := by
  rw [List.take_append, backslashes, List.take_replicate, List.length_replicate]
  rfl

lemma head?_take_ne (ht : peek t ≠ 92) (m : Nat) : ((t ++ [0]).take m).head? ≠ some 92 := by
  cases m with
  | zero => simp
  | succ m =>
    cases t with
    | nil => simp
    | cons c t => simpa [peek] using ht

lemma listedMatch_run {k j : Nat} (ht : peek t ≠ 92) (hpos : 0 < k + j) (hle : j ≤ t.length + 1)
    (hrule : ruleForRun k ((t ++ [0]).take j) = some p)
    (hlongest : ∀ i, j < i → i ≤ t.length + 1 → ruleForRun k ((t ++ [0]).take i) = none) :
    listedMatch (backslashes k ++ t) = some (p, k + j) := by
  have htake : ∀ i, ruleFor rules ((backslashes k ++ t ++ [0]).take (k + i)) =
      ruleForRun k ((t ++ [0]).take i) := by
    intro i
    rw [List.append_assoc, take_backslashes_append, Nat.add_sub_cancel_left,
      Nat.min_eq_right (Nat.le_add_right k i)]
    exact ruleFor_rules (head?_take_ne ht i)
  refine longestMatch_eq hpos ((htake j).trans hrule) ?_ ?_
  · simp only [List.length_append, length_backslashes]
    omega
  · intro m hm hle
    obtain ⟨i, rfl⟩ : ∃ i, m = k + i := ⟨m - k, by omega⟩
    simp only [List.length_append, length_backslashes] at hle
    rw [htake]
    exact hlongest i (by omega) (by omega)

/-- What has two bytes behind the backslashes is no word, but for a colon that ends a target and
for a line ended by a carriage return. -/
lemma ruleForRun_long {c d : UInt8} (hk : 0 < k) (hcolon : c = 58 → u = [] → endsTarget d = false)
    (hcr : k = 1 → c = 13 → u = [] → d ≠ 10) : ruleForRun k (c :: d :: u) = none := by
  have hk0 : k ≠ 0 := by omega
  simp [ruleForRun, all, fits, peek, hk0]
  grind

lemma ruleForRun_zero_long {c d : UInt8} (hc : isPlain c = false)
    (hdollar : c = 36 → u = [] → d ≠ 36) (hcr : c = 13 → u = [] → d ≠ 10) :
    ruleForRun 0 (c :: d :: u) = none := by
  simp [ruleForRun, all, fits, peek, hc]
  grind

/-- The first two bytes of a text, of which the second may be the NUL byte behind the end. -/
lemma take_append_nul (hi : i + 1 ≤ t.length) :
    (t ++ [0]).take (i + 2) = peek t :: peek t.tail :: (t.tail.tail ++ [0]).take i := by
  match t with
  | [_] =>
    obtain rfl : i = 0 := by simpa using hi
    rfl
  | _ :: _ :: _ => rfl

lemma take_one_append_nul (t : GoString) : (t ++ [0]).take 1 = [peek t] := by
  cases t <;> rfl

/-- What stands behind the first byte, and that it is one byte only of two. -/
lemma exists_take_append_nul (hi : 1 < i) (hle : i ≤ t.length + 1) :
    ∃ u, (t ++ [0]).take i = peek t :: peek t.tail :: u ∧ (u = [] → i = 2) := by
  obtain ⟨i, rfl⟩ : ∃ j, i = j + 2 := ⟨i - 2, by omega⟩
  refine ⟨_, take_append_nul (by omega), fun h => ?_⟩
  simpa using h

lemma ruleForRun_two {k i : Nat} (hk : 0 < k) (hi : 1 < i) (hle : i ≤ t.length + 1)
    (hcolon : peek t = 58 → i = 2 → endsTarget (peek t.tail) = false)
    (hcr : k = 1 → peek t = 13 → i = 2 → peek t.tail ≠ 10) :
    ruleForRun k ((t ++ [0]).take i) = none := by
  obtain ⟨u, hu, htwo⟩ := exists_take_append_nul hi hle
  rw [hu]
  exact ruleForRun_long hk (fun hc hu => hcolon hc (htwo hu)) fun hk hc hu => hcr hk hc (htwo hu)

lemma ruleForRun_zero_two (hi : 1 < i) (hle : i ≤ t.length + 1) (hc : isPlain (peek t) = false)
    (hdollar : peek t = 36 → i = 2 → peek t.tail ≠ 36)
    (hcr : peek t = 13 → i = 2 → peek t.tail ≠ 10) : ruleForRun 0 ((t ++ [0]).take i) = none := by
  obtain ⟨u, hu, htwo⟩ := exists_take_append_nul hi hle
  rw [hu]
  exact ruleForRun_zero_long hc (fun hc hu => hdollar hc (htwo hu)) fun hc hu => hcr hc (htwo hu)

lemma listedMatch_byte (hc : c ≠ 92) (hrule : ruleForRun (k + 1) [c] = some p)
    (hcolon : c = 58 → endsTarget (peek t) = false) (hcr : c ≠ 13) :
    listedMatch (backslashes (k + 1) ++ c :: t) = some (p, k + 2) := by
  refine listedMatch_run (j := 1) hc (by omega) (by simp) (by simpa using hrule) ?_
  intro i hi hle
  exact ruleForRun_two (by omega) hi hle (fun h _ => hcolon h) fun _ h => absurd h hcr

lemma isPlain_ne (hc : isPlain c = true) : c ≠ 0 ∧ c ≠ 10 ∧ c ≠ 13 ∧ c ≠ 36 ∧ c ≠ 92 := by
  refine ⟨?_, ?_, ?_, ?_, ?_⟩ <;> rintro rfl <;> exact absurd hc (by decide)

lemma ruleForRun_mixed (hc : isPlain c = true) (hu : u.all isPlain = false) :
    ruleForRun 0 (c :: u) = none := by
  obtain ⟨h0, h10, h13, h36, -⟩ := isPlain_ne hc
  have hne : u ≠ [] := fun h => by simp [h] at hu
  have hall : ¬ ∀ x ∈ u, isPlain x = true := fun h => by
    rw [List.all_eq_true.mpr h] at hu
    cases hu
  simp [ruleForRun, all, fits, h0, h10, h13, h36, hne]
  simpa [hc] using hall

lemma listedMatch_plain {s t : GoString} (hne : s ≠ []) (hs : ∀ c ∈ s, isPlain c = true)
    (ht : isPlain (peek t) = false) : listedMatch (s ++ t) = some (.text, s.length) := by
  obtain ⟨c, s, rfl⟩ := List.exists_cons_of_ne_nil hne
  have hc := hs c List.mem_cons_self
  obtain ⟨-, -, -, h36, h92⟩ := isPlain_ne hc
  rw [show (c :: s).length = 0 + (c :: s).length by simp]
  refine listedMatch_run (k := 0) (t := c :: s ++ t) h92 (by simp) (by simp; omega) ?_ ?_
  · have htake : (c :: s ++ t ++ [0]).take (c :: s).length = c :: s := by simp
    rw [htake]
    have hall : (c :: s).all isPlain = true := List.all_eq_true.mpr hs
    simp [ruleForRun, all, fits, h36]
    simpa using hall
  · intro i hi hle
    obtain ⟨j, rfl⟩ : ∃ j, i = s.length + 1 + (j + 1) := ⟨i - (s.length + 2), by
      simp at hi
      omega⟩
    have htake : (c :: s ++ t ++ [0]).take (s.length + 1 + (j + 1)) =
        c :: (s ++ (t ++ [0]).take (j + 1)) := by
      rw [List.append_assoc, show s.length + 1 = (c :: s).length from rfl,
        List.take_length_add_append]
      rfl
    have hmem : peek t ∈ (t ++ [0]).take (j + 1) := by cases t <;> simp
    rw [htake]
    refine ruleForRun_mixed hc (List.all_eq_false.mpr ⟨peek t, ?_, by simp [ht]⟩)
    exact List.mem_append_right _ hmem

lemma listedMatch_of_match {s : GoString} {n : Nat} (h : Match s p n) :
    listedMatch s = some (p, n) := by
  cases h with
  | oddSpace j t =>
    exact listedMatch_byte (by decide) (by simp [ruleForRun, all, fits])
      (by simp) (by decide)
  | evenSpace j t =>
    have heven : (2 * j + 1 + 1) % 2 = 0 := by omega
    exact listedMatch_byte (by decide) (by simp [ruleForRun, all, fits, heven])
      (by simp) (by decide)
  | hash k t =>
    exact listedMatch_byte (by decide) (by simp [ruleForRun, all, fits])
      (by simp) (by decide)
  | colon k t ht =>
    exact listedMatch_byte (by decide) (by simp [ruleForRun, all, fits])
      (fun _ => ht) (by decide)
  | escaped k c t hc =>
    obtain ⟨h0, h10, h13, h32, h35, h58, h92⟩ := hc
    exact listedMatch_byte h92
      (by simp [ruleForRun, all, fits, h0, h10, h13, h32, h35, h58])
      (fun h => absurd h h58) h13
  | continuation t =>
    exact listedMatch_byte (k := 0) (by decide) (by decide) (by simp) (by decide)
  | colonEnd k t ht =>
    refine listedMatch_run (j := 2) (by simp) (by omega) (by simp) ?_ ?_
    · rw [take_append_nul (i := 0) (by simp)]
      simpa [ruleForRun, all, fits] using ht
    · exact fun i hi hle => ruleForRun_two (by omega) (by omega) hle (by omega) (by omega)
  | continuationCR t =>
    refine listedMatch_run (k := 1) (j := 2) (t := 13 :: 10 :: t) (by simp) (by omega) (by simp)
      rfl ?_
    exact fun i hi hle => ruleForRun_two (by omega) (by omega) hle (by omega) (by omega)
  | run k t ht =>
    refine listedMatch_run (j := 0) (by rcases ht with h | h | h <;> simp [h]) (by omega)
      (by omega) (by simp [ruleForRun, all, fits]) ?_
    intro i hi hle
    rcases Nat.lt_or_ge 1 i with hi | hi
    · refine ruleForRun_two (by omega) hi hle ?_ (by omega)
      rcases ht with h | h | h <;> simp [h]
    · obtain rfl : i = 1 := by omega
      rw [take_one_append_nul]
      rcases ht with h | h | h <;> simp [ruleForRun, all, fits, h]
  | dollar t =>
    refine listedMatch_run (k := 0) (j := 2) (t := 36 :: 36 :: t) (by simp) (by omega) (by simp)
      rfl ?_
    exact fun i hi hle => ruleForRun_zero_two (by omega) hle rfl (by omega) (by omega)
  | newline t =>
    refine listedMatch_run (k := 0) (j := 1) (t := 10 :: t) (by simp) (by omega) (by simp) rfl ?_
    exact fun i hi hle => ruleForRun_zero_two (by omega) hle rfl (by simp) (by simp)
  | newlineCR t =>
    refine listedMatch_run (k := 0) (j := 2) (t := 13 :: 10 :: t) (by simp) (by omega) (by simp)
      rfl ?_
    exact fun i hi hle => ruleForRun_zero_two (by omega) hle rfl (by omega) (by omega)
  | nul s hs =>
    refine listedMatch_run (k := 0) (j := 1) (by simp [hs]) (by omega) (by simp) ?_ ?_
    · rw [take_one_append_nul, hs]
      rfl
    · intro i hi hle
      refine ruleForRun_zero_two (by omega) hle ?_ (by simp [hs]) (by simp [hs])
      rw [hs]
      rfl
  | plain s t hne hs ht => exact listedMatch_plain hne hs ht
  | other c t hc hcr hdollar hback =>
    by_cases h92 : c = 92
    · subst h92
      have hpeek : peek t ≠ 92 := by rcases hback rfl with h | ⟨h, -⟩ <;> simp [h]
      refine listedMatch_run (k := 1) (j := 0) hpeek (by omega) (by omega) rfl ?_
      intro i hi hle
      rcases Nat.lt_or_ge 1 i with hi | hi
      · refine ruleForRun_two (by omega) hi hle ?_ ?_
        · rcases hback rfl with h | ⟨h, -⟩ <;> simp [h]
        · rcases hback rfl with h | ⟨h, h'⟩ <;> simp [h]
          exact fun _ => h'
      · obtain rfl : i = 1 := by omega
        rw [take_one_append_nul]
        rcases hback rfl with h | ⟨h, -⟩ <;> simp [ruleForRun, all, fits, h]
    · refine listedMatch_run (k := 0) (j := 1) (t := c :: t) h92 (by omega) (by simp) ?_ ?_
      · simp [ruleForRun, all, fits, hc]
      · intro i hi hle
        exact ruleForRun_zero_two (by omega) hle hc.2.2 (fun h _ => hdollar h) fun h _ => hcr h

/-- The generated scanner takes the longest match of the listed patterns. -/
lemma listedMatch_eq_scan (s : GoString) : listedMatch s = some (scan s) :=
  listedMatch_of_match (scan_match s)

end Reninja.Depfile
