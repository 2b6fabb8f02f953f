import Reninja.Library.Words
import Reninja.Manifest.Env
import Reninja.Util.Paths

/-!
# Quoting of paths

`$in` and `$out` stand for lists of paths, quoted for the shell or, on Windows, for the rules that
split a command line into arguments. Both functions of `internal/util` copy spans of the input by
their offsets while they go over its runes. Read back by the rules they quote for, the paths are
what they were.
-/

namespace Reninja.Util

open List

def slice (s : GoString) (i j : Nat) : GoString := (s.take j).drop i

/-- The variables of the loops: what was written, the first byte that was not, and the length of the
run of backslashes read last. -/
structure Span where
  result : GoString
  spanBegin : Nat
  run : Nat

/-- One round of the loops: in front of some runes the span before them is written, and an escape
sequence. -/
def escapeRune (run : Nat → Nat → Nat) (escape : Nat → Nat → Option GoString) (input : GoString)
    (st : Span) (x : Nat × Nat) : Span :=
  match escape st.run x.2 with
  | some e => ⟨st.result ++ slice input st.spanBegin x.1 ++ e, x.1, run st.run x.2⟩
  | none => { st with run := run st.run x.2 }

/-- The loops: the text with the last span, and the run at its end. -/
def escapeRunes (run : Nat → Nat → Nat) (escape : Nat → Nat → Option GoString) (input : GoString) :
    GoString × Nat :=
  let st := (range input).foldl (escapeRune run escape input) ⟨[], 0, 0⟩
  (st.result ++ input.drop st.spanBegin, st.run)

def escapeBytes (run : Nat → Nat → Nat) (escape : Nat → Nat → Option GoString) :
    Nat → GoString → GoString
  | _, [] => []
  | n, c :: s => (escape n c.toNat).getD [] ++ c :: escapeBytes run escape (run n c.toNat) s

/-- What is written once the span reaches the end of the part that was read. -/
def Span.text (st : Span) (read : GoString) : GoString := st.result ++ read.drop st.spanBegin

section

variable (run : Nat → Nat → Nat) (escape : Nat → Nat → Option GoString)

lemma escapeRune_text (read s : GoString) (c : UInt8) {st : Span}
    (hst : st.spanBegin ≤ read.length) :
    let st' := escapeRune run escape (read ++ c :: s) st (read.length, c.toNat)
    st'.text (read ++ [c]) = st.text read ++ ((escape st.run c.toNat).getD [] ++ [c]) ∧
      st'.spanBegin ≤ (read ++ [c]).length ∧ st'.run = run st.run c.toNat := by
  cases he : escape st.run c.toNat with
  | some e =>
    have hslice : slice (read ++ c :: s) st.spanBegin read.length = read.drop st.spanBegin := by
      simp [slice]
    simp [escapeRune, he, Span.text, hslice]
  | none =>
    have hdrop : (read ++ [c]).drop st.spanBegin = read.drop st.spanBegin ++ [c] :=
      drop_append_of_le_length hst
    simp only [escapeRune, he, Span.text, hdrop, Option.getD_none, nil_append,
      append_assoc, length_append, and_true, true_and]
    exact Nat.le_add_right_of_le hst

lemma foldl_escapeRune (read s : GoString) {st : Span} (hst : st.spanBegin ≤ read.length) :
    let st' := (s.zipIdx read.length).foldl
      (fun st x => escapeRune run escape (read ++ s) st (x.2, x.1.toNat)) st
    st'.text (read ++ s) = st.text read ++ escapeBytes run escape st.run s ∧
      st'.run = s.foldl (fun n c => run n c.toNat) st.run := by
  induction s generalizing read st with
  | nil => simp [escapeBytes]
  | cons c s ih =>
    obtain ⟨htext, hbegin, hrun⟩ := escapeRune_text run escape read s c hst
    have hrest := ih (read ++ [c]) hbegin
    have hread : read ++ [c] ++ s = read ++ c :: s := by simp
    have hlen : (read ++ [c]).length = read.length + 1 := by simp
    rw [hread, htext, hrun, hlen] at hrest
    rw [zipIdx_cons, foldl_cons, foldl_cons, escapeBytes]
    simpa using hrest

variable {run escape} in
/-- The loops insert the escape sequences and change nothing else, when they take no notice of runes
behind ASCII. -/
theorem escapeRunes_eq (hrun : ∀ n r, 0x80 ≤ r → run n r = 0)
    (hescape : ∀ n r, 0x80 ≤ r → escape n r = none) (input : GoString) :
    escapeRunes run escape input =
      (escapeBytes run escape 0 input, input.foldl (fun n c => run n c.toNat) 0) := by
  have hstep : ∀ (st : Span) (i r : Nat), 0x80 ≤ r →
      escapeRune run escape input st (i, r) = { st with run := 0 } := by
    intro st i r hr
    simp [escapeRune, hescape st.run r hr, hrun st.run r hr]
  have hloop := foldl_range hstep (fun _ => rfl) input ⟨[], 0, 0⟩
  obtain ⟨htext, hlast⟩ := @foldl_escapeRune run escape [] input ⟨[], 0, 0⟩ (Nat.zero_le _)
  rw [escapeRunes, hloop]
  exact Prod.ext htext hlast

end

/-! ### The shell -/

def isKnownShellSafeCharacter (ch : Nat) : Bool :=
  (65 ≤ ch && ch ≤ 90) || (97 ≤ ch && ch ≤ 122) || (48 ≤ ch && ch ≤ 57) ||
    ch = 95 || ch = 43 || ch = 45 || ch = 46 || ch = 47

def stringNeedsShellEscaping (input : GoString) : Bool :=
  (range input).any fun x => !isKnownShellSafeCharacter x.2

/-- The escape sequence in front of an apostrophe of the input: one that ends the quotes, a
backslash and an apostrophe. The one of the input begins new quotes. -/
def shellEscape (_ ch : Nat) : Option GoString := if ch = 39 then some [39, 92, 39] else none

def getShellEscapedString (input : GoString) : GoString :=
  if !stringNeedsShellEscaping input then input
  else [39] ++ (escapeRunes (fun _ _ => 0) shellEscape input).1 ++ [39]

/-- The rules of a POSIX shell for single quotes, backslashes and blanks. -/
def posix : Shell UInt8 where
  quote := 39
  escape := 92
  newline := 10
  blank c := c = 32 || c = 9
  escape_ne_quote := by decide
  newline_ne_quote := by decide

/-- The characters that a shell may give a meaning to when they are not quoted. -/
def metacharacters : GoString := "|&;<>()$`\\\"' \t\n*?[]#~=%!\x7b\x7d^,"

lemma stringNeedsShellEscaping_eq (s : GoString) :
    stringNeedsShellEscaping s = s.any fun c => !isKnownShellSafeCharacter c.toNat := by
  refine any_range (fun r => !isKnownShellSafeCharacter r) true (fun r hr => ?_) s
  have hsafe : isKnownShellSafeCharacter r = false := by
    simp only [isKnownShellSafeCharacter, Bool.or_eq_false_iff, Bool.and_eq_false_iff,
      decide_eq_false_iff_not]
    omega
  exact congrArg (!·) hsafe

lemma safe_of_mem {s : GoString} {c : UInt8} (h : stringNeedsShellEscaping s = false)
    (hc : c ∈ s) : isKnownShellSafeCharacter c.toNat = true := by
  rw [stringNeedsShellEscaping_eq, any_eq_false] at h
  simpa using h c hc

lemma escapeBytes_shellEscape (s : GoString) :
    escapeBytes (fun _ _ => 0) shellEscape 0 s =
      s.flatMap fun c => if c = 39 then [c, 92, c, c] else [c] := by
  induction s with
  | nil => rfl
  | cons c s ih =>
    rw [escapeBytes, ih, flatMap_cons]
    by_cases hc : c = 39
    · subst hc
      rfl
    · have hch : c.toNat ≠ 39 := fun h => hc (UInt8.toNat_inj.mp h)
      rw [shellEscape, if_neg hch, if_neg hc]
      rfl

lemma getShellEscapedString_eq (s : GoString) :
    getShellEscapedString s = if stringNeedsShellEscaping s then posix.quoted s else s := by
  have hescape : ∀ n r, 0x80 ≤ r → shellEscape n r = none := fun n r hr => if_neg (by omega)
  have hloop := escapeRunes_eq (fun _ _ _ => rfl) hescape s
  rw [getShellEscapedString, hloop, escapeBytes_shellEscape]
  cases stringNeedsShellEscaping s <;> rfl

/-- The loop over runes writes what the one over bytes in the evaluation of variables does. -/
lemma getShellEscapedString_eq_bytes (s : GoString) :
    getShellEscapedString s = Reninja.getShellEscapedString s := by
  have hsafe (c : UInt8) :
      isKnownShellSafeCharacter c.toNat = Reninja.isKnownShellSafeCharacter c := by
    simp [isKnownShellSafeCharacter, Reninja.isKnownShellSafeCharacter, UInt8.le_iff_toNat_le,
      ← UInt8.toNat_inj]
  have hneeds : stringNeedsShellEscaping s = !s.all Reninja.isKnownShellSafeCharacter := by
    rw [stringNeedsShellEscaping_eq, not_all_eq_any_not]
    simp only [hsafe]
  have hquoted : (s.flatMap fun c => if c = 39 then [39, 92, 39, 39] else [c]) =
      s.flatMap fun c => if c = 39 then [c, 92, c, c] else [c] := by
    refine flatMap_congr fun c _ => ?_
    split_ifs with hc
    · rw [hc]
    · rfl
  rw [getShellEscapedString_eq, Reninja.getShellEscapedString, hneeds, hquoted]
  cases s.all Reninja.isKnownShellSafeCharacter <;> rfl

lemma notMem_metacharacters {c : UInt8} (h : isKnownShellSafeCharacter c.toNat = true) :
    c ∉ metacharacters := by
  have hall : metacharacters.all (fun c => !isKnownShellSafeCharacter c.toNat) = true := by
    decide +kernel
  intro hc
  simpa [h] using all_eq_true.mp hall c hc

/-- A path is read as one word. All of its characters are quoted or none is. -/
lemma reads_getShellEscapedString {p : GoString} (hne : p ≠ []) :
    posix.Reads (getShellEscapedString p)
      (p.map fun c => ⟨c, stringNeedsShellEscaping p⟩) := by
  rw [getShellEscapedString_eq]
  cases hneeds : stringNeedsShellEscaping p with
  | true => exact Shell.reads_quoted p
  | false =>
    refine Shell.reads_plain hne fun c hc => ?_
    have hmeta := notMem_metacharacters (safe_of_mem hneeds hc)
    refine ⟨?_, ?_, ?_⟩
    · rintro rfl
      exact hmeta (by decide +kernel)
    · rintro rfl
      exact hmeta (by decide +kernel)
    · by_contra hblank
      simp only [posix, Bool.not_eq_false, Bool.or_eq_true, decide_eq_true_eq] at hblank
      rcases hblank with rfl | rfl
      · exact hmeta (by decide +kernel)
      · exact hmeta (by decide +kernel)

/-! ### Windows -/

def isKnownWin32SafeCharacter (ch : Nat) : Bool := !(ch = 32 || ch = 34)

def stringNeedsWin32Escaping (input : GoString) : Bool :=
  (range input).any fun x => !isKnownWin32SafeCharacter x.2

def backslashCount (n ch : Nat) : Nat := if ch = 92 then n + 1 else 0

/-- The backslashes in front of a quotation mark of the input. -/
def win32Escape (n ch : Nat) : Option GoString :=
  if ch = 34 then some (replicate (n + 1) backslash) else none

def getWin32EscapedString (input : GoString) : GoString :=
  if !stringNeedsWin32Escaping input then input
  else
    let (text, n) := escapeRunes backslashCount win32Escape input
    [34] ++ text ++ replicate n backslash ++ [34]

def commandLineToArgvW : Argv UInt8 where
  quote := 34
  escape := backslash
  blank c := c = 32 || c = 9
  escape_ne_quote := by decide

lemma stringNeedsWin32Escaping_eq (s : GoString) :
    stringNeedsWin32Escaping s = s.any fun c => !isKnownWin32SafeCharacter c.toNat := by
  refine any_range (fun r => !isKnownWin32SafeCharacter r) false (fun r hr => ?_) s
  have hsafe : isKnownWin32SafeCharacter r = true := by
    simp only [isKnownWin32SafeCharacter, Bool.not_eq_true', Bool.or_eq_false_iff,
      decide_eq_false_iff_not]
    omega
  exact congrArg (!·) hsafe

/-- The run at the end is doubled in front of the closing quotation mark. -/
lemma escapeBytes_win32Escape (n : Nat) (s : GoString) :
    escapeBytes backslashCount win32Escape n s ++
        (replicate (s.foldl (fun n c => backslashCount n c.toNat) n) backslash ++ [34]) =
      commandLineToArgvW.quotedFrom n s := by
  induction s generalizing n with
  | nil => rfl
  | cons c s ih =>
    rw [escapeBytes, foldl_cons, Argv.quotedFrom, append_assoc, cons_append, ih]
    by_cases hbackslash : c = backslash
    · subst hbackslash
      rfl
    · have hch : c.toNat ≠ 92 := fun h => hbackslash (UInt8.toNat_inj.mp h)
      rw [backslashCount, if_neg hch, if_neg (show c ≠ commandLineToArgvW.escape from hbackslash)]
      by_cases hquote : c = 34
      · subst hquote
        rfl
      · have hch : c.toNat ≠ 34 := fun h => hquote (UInt8.toNat_inj.mp h)
        rw [win32Escape, if_neg hch, if_neg (show c ≠ commandLineToArgvW.quote from hquote)]
        rfl

lemma getWin32EscapedString_eq (s : GoString) :
    getWin32EscapedString s =
      if stringNeedsWin32Escaping s then commandLineToArgvW.quoted s else s := by
  have hescape : ∀ n r, 0x80 ≤ r → win32Escape n r = none := fun n r hr => if_neg (by omega)
  have hrun : ∀ n r, 0x80 ≤ r → backslashCount n r = 0 := fun n r hr => if_neg (by omega)
  have hloop := escapeRunes_eq hrun hescape s
  have htext := escapeBytes_win32Escape 0 s
  simp only [getWin32EscapedString, hloop, Argv.quoted, ← htext]
  cases stringNeedsWin32Escaping s <;> simp [commandLineToArgvW]

/-- Quoted for Windows, a string without tabs is read as one argument: itself. -/
theorem args_getWin32EscapedString {s : GoString} (hne : s ≠ []) (htab : 9 ∉ s) :
    commandLineToArgvW.args (getWin32EscapedString s) = [s] := by
  rw [getWin32EscapedString_eq]
  cases hneeds : stringNeedsWin32Escaping s with
  | true => exact Argv.args_quoted s
  | false =>
    refine Argv.args_plain hne fun c hc => ?_
    rw [stringNeedsWin32Escaping_eq, any_eq_false] at hneeds
    have hsafe := hneeds c hc
    simp only [isKnownWin32SafeCharacter, Bool.not_not, Bool.or_eq_true, decide_eq_true_eq,
      not_or] at hsafe
    refine ⟨?_, ?_⟩
    · rintro rfl
      exact hsafe.2 rfl
    · simp only [commandLineToArgvW, Bool.or_eq_false_iff, decide_eq_false_iff_not]
      refine ⟨?_, ?_⟩
      · rintro rfl
        exact hsafe.1 rfl
      · rintro rfl
        exact htab hc

theorem args_getWin32EscapedString_backslashes :
    ("a\\\" \\" : GoString) ≠ [] ∧ 9 ∉ ("a\\\" \\" : GoString) ∧
      commandLineToArgvW.args (getWin32EscapedString "a\\\" \\") = [("a\\\" \\" : GoString)] :=
  ⟨by decide +kernel, by decide +kernel,
    args_getWin32EscapedString (by decide +kernel) (by decide +kernel)⟩

/-- The fields of a node that `MakePathList` reads. -/
structure Node where
  path : GoString
  slashBits : UInt64

def Node.pathDecanonicalized (n : Node) : GoString := Util.pathDecanonicalized n.path n.slashBits

def makePathList (windows escapeInOut : Bool) (span : List Node) (sep : UInt8) : GoString :=
  [sep].intercalate (span.map fun node =>
    if escapeInOut then
      if windows then getWin32EscapedString node.pathDecanonicalized
      else getShellEscapedString node.pathDecanonicalized
    else node.pathDecanonicalized)

/-- The evaluation of variables writes the same list. -/
lemma makePathList_eq (escapeInOut : Bool) (span : List Node) (sep : UInt8) :
    makePathList false escapeInOut span sep =
      Reninja.makePathList escapeInOut (span.map Node.pathDecanonicalized) sep := by
  simp only [makePathList, Reninja.makePathList, map_map, Function.comp_def,
    getShellEscapedString_eq_bytes, Bool.false_eq_true, if_false]

/-- A shell reads the list back as the paths, and no metacharacter is left without quotes. -/
theorem words_makePathList {span : List Node}
    (hne : ∀ node ∈ span, node.pathDecanonicalized ≠ []) :
    ∃ ws, posix.words (makePathList false true span 32) = some ws ∧
      ws.map (map Shell.Mark.char) = span.map Node.pathDecanonicalized ∧
      ∀ w ∈ ws, ∀ m ∈ w, m.quoted = false → m.char ∉ metacharacters := by
  refine ⟨span.map fun node => node.pathDecanonicalized.map fun c =>
    ⟨c, stringNeedsShellEscaping node.pathDecanonicalized⟩, ?_, ?_, ?_⟩
  · simp only [makePathList, if_true, Bool.false_eq_true, if_false]
    exact Shell.words_intercalate (by decide) (by decide) rfl fun node hnode =>
      reads_getShellEscapedString (hne node hnode)
  · simp [Function.comp_def]
  · intro w hw m hm hquoted
    obtain ⟨node, -, rfl⟩ := mem_map.mp hw
    obtain ⟨c, hc, rfl⟩ := mem_map.mp hm
    exact notMem_metacharacters (safe_of_mem hquoted hc)

/-- Paths with a blank, an apostrophe and a backslash that was a separator. -/
def samplePaths : List Node := [⟨"a b", 0⟩, ⟨"it's", 0⟩, ⟨"c/d", 1⟩]

theorem words_makePathList_samplePaths :
    (∀ node ∈ samplePaths, node.pathDecanonicalized ≠ []) ∧
      ∃ ws, posix.words (makePathList false true samplePaths 32) = some ws ∧
        ws.map (map Shell.Mark.char) = samplePaths.map Node.pathDecanonicalized ∧
        ∀ w ∈ ws, ∀ m ∈ w, m.quoted = false → m.char ∉ metacharacters :=
  ⟨by decide +kernel, words_makePathList (by decide +kernel)⟩

example : makePathList false true samplePaths 32 = "'a b' 'it'\\''s' 'c\\d'" := by decide +kernel

end Reninja.Util
