import Reninja.Depfile.Agree

/-!
# Writing a depfile and reading it

A rule is written as compilers write it: a backslash in front of a space, a `#` and a `:`, and two
dollar signs for one. The parser reads the names that were written.
-/

namespace Reninja.Depfile

open Reading List

variable {name : GoString}

/-- The bytes of names: those that are text, and those that are written with an escape. -/
def isNameByte (c : UInt8) : Bool := isPlain c || c = 32 || c = 35 || c = 36

/-- The names that are written: a colon at the end of one would be taken for the end of a target. -/
structure IsName (name : GoString) : Prop where
  nonempty : name ≠ []
  bytes : ∀ c ∈ name, isNameByte c = true
  colon : name.getLast? ≠ some 58

def escapeByte (c : UInt8) : GoString :=
  if c = 32 ∨ c = 35 ∨ c = 58 then [92, c] else if c = 36 then [36, 36] else [c]

def escape (name : GoString) : GoString := name.flatMap escapeByte

def printNames (names : List GoString) : GoString := [32].intercalate (names.map escape)

def printRule (targets dependencies : List GoString) : GoString :=
  printNames targets ++ [58, 32] ++ printNames dependencies ++ [10]

/-! ### The tokens of a name -/

lemma scan_of_match {s : GoString} {p : Pattern} {n : Nat} (h : Match s p n) : scan s = (p, n) := by
  have hlisted := listedMatch_of_match h
  rw [listedMatch_eq_scan] at hlisted
  exact Option.some.inj hlisted

section Tokens

variable {c : UInt8} {s text : GoString}

lemma splitNames_token {p : Pattern} {n : Nat} (h : Match s p n) (hname : p.endsName = false)
    {w r : GoString} (hw : Token.text ⟨p, (s ++ [0]).take n⟩ = w) (hr : s.drop n = r) :
    splitNames text (tokens s) = splitNames (text ++ w) (tokens r) := by
  rw [splitNames_inside text (scan_of_match h) hname, hw, hr]

lemma splitNames_run (text : GoString) {r t : GoString} (hr : ∀ c ∈ r, isPlain c = true)
    (hne : r ≠ []) (ht : isPlain (peek t) = false) :
    splitNames text (tokens (r ++ t)) = splitNames (text ++ r) (tokens t) := by
  refine splitNames_token (.plain r t hne hr ht) rfl ?_ drop_left
  rw [Token.text, append_assoc, take_left]

lemma splitNames_plain (hc : isPlain c = true) :
    splitNames text (tokens (c :: s)) = splitNames (text ++ [c]) (tokens s) := by
  have hpeek := isPlain_peek_dropWhile s
  have hall : ∀ d ∈ s.takeWhile isPlain, isPlain d = true := fun d hd => mem_takeWhile_imp hd
  have hsplit := takeWhile_append_dropWhile (p := isPlain) (l := s)
  have hcons := splitNames_run text (forall_mem_cons.mpr ⟨hc, hall⟩) (by simp) hpeek
  rw [cons_append, hsplit] at hcons
  rw [hcons]
  by_cases hne : s.takeWhile isPlain = []
  · rw [hne, nil_append] at hsplit
    rw [hne, hsplit]
  · have htail := splitNames_run (text ++ [c]) hall hne hpeek
    rw [hsplit] at htail
    rw [htail, append_assoc]
    rfl

lemma endsTarget_of_isPlain (hc : isPlain c = true) : endsTarget c = false := by
  by_contra h
  simp only [endsTarget, Bool.not_eq_false, Bool.or_eq_true, decide_eq_true_eq] at h
  rcases h with (((rfl | rfl) | rfl) | rfl) | rfl <;> exact absurd hc (by decide)

lemma endsTarget_escapeByte (hc : isNameByte c = true) (r : GoString) :
    endsTarget (peek (escapeByte c ++ r)) = false := by
  rw [escapeByte]
  split_ifs with h32 h36
  · rfl
  · rfl
  · rw [isNameByte] at hc
    simp only [not_or] at h32
    exact endsTarget_of_isPlain (by simpa [h32, h36] using hc)

lemma splitNames_escapeByte (hc : isNameByte c = true)
    (hcolon : c = 58 → endsTarget (peek s) = false) :
    splitNames text (tokens (escapeByte c ++ s)) = splitNames (text ++ [c]) (tokens s) := by
  by_cases h32 : c = 32
  · subst h32
    exact splitNames_token (.oddSpace 0 s) rfl (text_oddSpace 0) rfl
  by_cases h35 : c = 35
  · subst h35
    exact splitNames_token (.hash 0 s) rfl rfl rfl
  by_cases h58 : c = 58
  · subst h58
    exact splitNames_token (.colon 0 s (hcolon rfl)) rfl rfl rfl
  by_cases h36 : c = 36
  · subst h36
    exact splitNames_token (.dollar s) rfl rfl rfl
  · have hplain : isPlain c = true := by simpa [isNameByte, h32, h35, h36] using hc
    simp only [escapeByte, h32, h35, h58, h36, or_self, if_false]
    exact splitNames_plain hplain

lemma splitNames_escape (hbytes : ∀ c ∈ name, isNameByte c = true)
    (hcolon : name.getLast? ≠ some 58) :
    splitNames text (tokens (escape name ++ s)) = splitNames (text ++ name) (tokens s) := by
  induction name generalizing text with
  | nil => rw [append_nil]; rfl
  | cons c name ih =>
    obtain ⟨hc, hbytes⟩ := forall_mem_cons.mp hbytes
    have hlast : name ≠ [] → name.getLast? ≠ some 58 := fun hne => by
      rwa [getLast?_cons_of_ne_nil hne] at hcolon
    have hescape : escape (c :: name) ++ s = escapeByte c ++ (escape name ++ s) := by
      simp [escape]
    have hnext : c = 58 → endsTarget (peek (escape name ++ s)) = false := by
      rintro rfl
      cases name with
      | nil => exact absurd rfl hcolon
      | cons d name =>
        have hd : escape (d :: name) ++ s = escapeByte d ++ (escape name ++ s) := by
          simp [escape]
        rw [hd]
        exact endsTarget_escapeByte (hbytes d (by simp)) _
    have hname : name.getLast? ≠ some 58 := by
      by_cases hne : name = []
      · simp [hne]
      · exact hlast hne
    rw [hescape, splitNames_escapeByte hc hnext, ih hbytes hname, append_assoc]
    rfl

lemma splitNames_space :
    splitNames text (tokens (32 :: s)) = (text, false) :: splitNames [] (tokens s) := by
  have hmatch : Match (32 :: s) .other 1 :=
    .other 32 s ⟨by decide, by decide, by decide⟩ (by simp) (by simp) (by simp)
  rw [tokens_eq (by simp) (scan_of_match hmatch), splitNames]
  exact congrArg (fun t => (t, false) :: splitNames [] (tokens s)) (append_nil text)

lemma splitNames_newline :
    splitNames text (tokens (10 :: s)) = (text, true) :: splitNames [] (tokens s) := by
  rw [tokens_eq (by simp) (scan_of_match (.newline s)), splitNames]
  exact congrArg (fun t => (t, true) :: splitNames [] (tokens s)) (append_nil text)

end Tokens

/-! ### Reading a printed rule -/

lemma appendNew_eraseDups (names : List GoString) (name : GoString) :
    appendNew names.eraseDups name = (names ++ [name]).eraseDups := by
  rw [appendNew, eraseDups_append]
  by_cases h : name ∈ names
  · rw [if_pos (mem_eraseDups.mpr h)]
    simp [removeAll, h]
  · rw [if_neg (mt mem_eraseDups.mp h)]
    simp [removeAll, h, eraseDups_cons]

lemma printNames_cons_cons (name next : GoString) (names : List GoString) :
    printNames (name :: next :: names) = escape name ++ 32 :: printNames (next :: names) := by
  simp [printNames, intercalate]

lemma printNames_singleton (name : GoString) : printNames [name] = escape name := by
  simp [printNames, intercalate]

lemma splitNames_name {name s : GoString} (hname : IsName name) :
    splitNames [] (tokens (escape name ++ s)) = splitNames name (tokens s) :=
  splitNames_escape hname.bytes hname.colon

lemma readName_target (hname : IsName name) (seen : List GoString) (anyName : Bool) :
    readName { outs := seen.eraseDups, anyName := anyName } name =
      ({ outs := (seen ++ [name]).eraseDups, anyName := true }, none) := by
  rw [readName, if_neg hname.colon]
  simp [addName, hname.nonempty, addTarget, appendNew_eraseDups]

lemma readName_lastTarget (hname : IsName name) (seen : List GoString) (anyName : Bool) :
    readName { outs := seen.eraseDups, anyName := anyName } (name ++ [58]) =
      ({ outs := (seen ++ [name]).eraseDups, afterColon := true, anyColon := true,
         anyName := true }, none) := by
  rw [readName, if_pos (by simp)]
  simp [addName, hname.nonempty, addTarget, appendNew_eraseDups]

lemma readName_dependency (hname : IsName name) (outs seen : List GoString) :
    readName { outs := outs, ins := seen.eraseDups, afterColon := true, anyColon := true,
                       anyName := true } name =
      ({ outs := outs, ins := (seen ++ [name]).eraseDups, afterColon := true, anyColon := true,
         anyName := true }, none) := by
  rw [readName, if_neg hname.colon]
  simp [addName, hname.nonempty, addDependency, appendNew_eraseDups]

lemma readNames_targets {targets : List GoString} (hne : targets ≠ [])
    (hnames : ∀ name ∈ targets, IsName name) (seen : List GoString) (anyName : Bool)
    (s : GoString) :
    readNames { outs := seen.eraseDups, anyName := anyName }
        (splitNames [] (tokens (printNames targets ++ 58 :: 32 :: s))) =
      readNames
        { outs := (seen ++ targets).eraseDups, afterColon := true, anyColon := true,
          anyName := true }
        (splitNames [] (tokens s)) := by
  induction targets generalizing seen anyName with
  | nil => exact absurd rfl hne
  | cons name targets ih =>
    obtain ⟨hname, hnames⟩ := forall_mem_cons.mp hnames
    cases targets with
    | nil =>
      rw [printNames_singleton, splitNames_name hname, splitNames_plain (by decide),
        splitNames_space, readNames, readName_lastTarget hname]
      rfl
    | cons next targets =>
      rw [printNames_cons_cons, append_assoc, cons_append, splitNames_name hname,
        splitNames_space, readNames, readName_target hname]
      simp only [Bool.false_eq_true, if_false]
      rw [ih (by simp) hnames, append_assoc]
      rfl

lemma readNames_dependencies {dependencies : List GoString}
    (hnames : ∀ name ∈ dependencies, IsName name) (outs seen : List GoString) :
    ∃ r : Reading, readNames
        { outs := outs, ins := seen.eraseDups, afterColon := true, anyColon := true,
          anyName := true }
        (splitNames [] (tokens (printNames dependencies ++ [10]))) = (r, none) ∧
      r.outs = outs ∧ r.ins = (seen ++ dependencies).eraseDups := by
  induction dependencies generalizing seen with
  | nil =>
    rw [printNames, map_nil, show intercalate [32] [] ++ [10] = (10 :: [] : GoString) from rfl,
      splitNames_newline, append_nil]
    exact ⟨_, rfl, rfl, rfl⟩
  | cons name dependencies ih =>
    obtain ⟨hname, hnames⟩ := forall_mem_cons.mp hnames
    cases dependencies with
    | nil =>
      rw [printNames_singleton, splitNames_name hname, splitNames_newline, readNames,
        readName_dependency hname]
      exact ⟨_, rfl, rfl, rfl⟩
    | cons next dependencies =>
      rw [printNames_cons_cons, append_assoc, cons_append, splitNames_name hname,
        splitNames_space, readNames, readName_dependency hname]
      simp only [Bool.false_eq_true, if_false]
      obtain ⟨r, hr, houts, hins⟩ := ih hnames (seen ++ [name])
      exact ⟨r, hr, houts, by rw [hins, append_assoc]; rfl⟩

/-- A printed rule reads as its targets and its dependencies, each the first time it occurs. A name
may be a target and a dependency. -/
theorem parse_printRule (targets dependencies : List GoString) (hne : targets ≠ [])
    (htargets : ∀ name ∈ targets, IsName name)
    (hdependencies : ∀ name ∈ dependencies, IsName name) :
    ∃ names, parse (printRule targets dependencies) = .done names none ∧
      names.outs = targets.eraseDups ∧ names.ins = dependencies.eraseDups := by
  obtain ⟨r, hr, houts, hins⟩ := readNames_dependencies hdependencies targets.eraseDups []
  have hread : reading (printRule targets dependencies) = (r, none) := by
    have hprint : printRule targets dependencies =
        printNames targets ++ 58 :: 32 :: (printNames dependencies ++ [10]) := by
      simp [printRule]
    rw [reading, hprint, ← hr]
    exact readNames_targets hne htargets [] false _
  obtain ⟨names, hparse, hnames⟩ := parse_done (printRule targets dependencies)
  rw [hread, houts, hins] at hnames
  rw [hread] at hparse
  exact ⟨names, hparse, hnames⟩

/-- A rule for `a` that depends on `b c` and on `$#` reads back. -/
theorem parse_printRule_escapes :
    printRule [[97]] [[98, 32, 99], [36, 35]] =
        [97, 58, 32, 98, 92, 32, 99, 32, 36, 36, 92, 35, 10] ∧
      ∃ names, parse (printRule [[97]] [[98, 32, 99], [36, 35]]) = .done names none ∧
        names.outs = [[97]].eraseDups ∧ names.ins = [[98, 32, 99], [36, 35]].eraseDups :=
  ⟨by decide, parse_printRule [[97]] [[98, 32, 99], [36, 35]] (by decide)
    (by
      simp only [forall_mem_cons]
      exact ⟨⟨by decide, all_eq_true.mp (by decide), by decide⟩, by simp⟩)
    (by
      simp only [forall_mem_cons]
      exact ⟨⟨by decide, all_eq_true.mp (by decide), by decide⟩,
        ⟨by decide, all_eq_true.mp (by decide), by decide⟩, by simp⟩)⟩

end Reninja.Depfile
