import Mathlib.Data.List.Basic

/-!
# The words of a command line

How a command line is read back into words: by a shell with single quotes and an escape character,
and by the rules for the arguments of a process where runs of escape characters count only in front
of a quote. Both are state machines over the characters of the line. `Shell.words_intercalate` puts
together words that are read one by one; `Shell.reads_quoted` and `Argv.args_quoted` read a word
that was quoted.
-/

/-! ### Shells -/

/-- The characters with a meaning when a line is split into words. -/
structure Shell (α : Type*) where
  quote : α
  escape : α
  newline : α
  blank : α → Bool
  escape_ne_quote : escape ≠ quote
  newline_ne_quote : newline ≠ quote

namespace Shell

open List

variable {α : Type*} [DecidableEq α] (sh : Shell α)

/-- A character of a word, after the quotes are removed. -/
structure Mark (α : Type*) where
  char : α
  quoted : Bool
  deriving DecidableEq

inductive Mode
  | plain
  | quoted
  | escaped
  deriving DecidableEq

/-- Split the rest of a line; `w` is the word that was begun. A quoted newline is kept, an escaped
one is removed. -/
def split : Mode → Option (List (Mark α)) → List α → Option (List (List (Mark α)))
  | .plain, w, [] => some w.toList
  | .quoted, _, [] => none
  | .escaped, _, [] => none
  | .plain, w, c :: s =>
    if c = sh.quote then split .quoted (some (w.getD [])) s
    else if c = sh.escape then split .escaped w s
    else if sh.blank c then (split .plain none s).map (w.toList ++ ·)
    else split .plain (some (w.getD [] ++ [⟨c, false⟩])) s
  | .quoted, w, c :: s =>
    if c = sh.quote then split .plain w s
    else split .quoted (some (w.getD [] ++ [⟨c, true⟩])) s
  | .escaped, w, c :: s =>
    if c = sh.newline then split .plain w s
    else split .plain (some (w.getD [] ++ [⟨c, true⟩])) s

/-- The words of a line. -/
def words (s : List α) : Option (List (List (Mark α))) := sh.split .plain none s

/-- The text is read as one word, whatever stands behind it. -/
def Reads (text : List α) (w : List (Mark α)) : Prop :=
  ∀ t, sh.split .plain none (text ++ t) = sh.split .plain (some w) t

/-- Put a text into quotes. A quote in it is moved out of them and escaped. -/
def quoted (s : List α) : List α :=
  sh.quote :: s.flatMap (fun c => if c = sh.quote then [c, sh.escape, c, c] else [c]) ++ [sh.quote]

variable {sh}

lemma split_quoted (s t : List α) (w : List (Mark α)) :
    sh.split .quoted (some w)
        (s.flatMap (fun c => if c = sh.quote then [c, sh.escape, c, c] else [c]) ++ sh.quote :: t) =
      sh.split .plain (some (w ++ s.map fun c => ⟨c, true⟩)) t := by
  induction s generalizing w with
  | nil => simp [split]
  | cons c s ih =>
    rw [flatMap_cons, append_assoc]
    by_cases hc : c = sh.quote
    · -- close the quotes, take the escaped quote, open them again
      subst hc
      simp only [if_true, cons_append, nil_append, split, sh.escape_ne_quote, if_false,
        sh.newline_ne_quote.symm, Option.getD_some]
      rw [ih, map_cons, append_assoc]
      rfl
    · simp only [if_neg hc, cons_append, nil_append, split, Option.getD_some]
      rw [ih, map_cons, append_assoc]
      rfl

/-- A quoted text is read as the text, and each of its characters is quoted. -/
theorem reads_quoted (s : List α) : sh.Reads (sh.quoted s) (s.map fun c => ⟨c, true⟩) := by
  intro t
  rw [quoted, cons_append, cons_append, append_assoc, split, if_pos rfl]
  exact split_quoted s t []

lemma split_plain {s : List α} (t : List α) (w : List (Mark α))
    (h : ∀ c ∈ s, c ≠ sh.quote ∧ c ≠ sh.escape ∧ sh.blank c = false) :
    sh.split .plain (some w) (s ++ t) =
      sh.split .plain (some (w ++ s.map fun c => ⟨c, false⟩)) t := by
  induction s generalizing w with
  | nil => simp
  | cons c s ih =>
    obtain ⟨⟨hquote, hescape, hblank⟩, hs⟩ := forall_mem_cons.mp h
    rw [cons_append, split, if_neg hquote, if_neg hescape, hblank, if_neg Bool.false_ne_true,
      ih _ hs, Option.getD_some, map_cons, append_assoc]
    rfl

/-- A text without characters that have a meaning is read as it is. -/
theorem reads_plain {s : List α} (hne : s ≠ [])
    (h : ∀ c ∈ s, c ≠ sh.quote ∧ c ≠ sh.escape ∧ sh.blank c = false) :
    sh.Reads s (s.map fun c => ⟨c, false⟩) := by
  obtain ⟨c, s, rfl⟩ := exists_cons_of_ne_nil hne
  obtain ⟨⟨hquote, hescape, hblank⟩, hs⟩ := forall_mem_cons.mp h
  intro t
  rw [cons_append, split, if_neg hquote, if_neg hescape, hblank, if_neg Bool.false_ne_true]
  exact split_plain t _ hs

/-- Words with a blank between them are read one by one. -/
theorem words_intercalate {β : Type*} {sep : α} (hquote : sep ≠ sh.quote)
    (hescape : sep ≠ sh.escape) (hblank : sh.blank sep = true)
    {text : β → List α} {word : β → List (Mark α)} {l : List β}
    (h : ∀ x ∈ l, sh.Reads (text x) (word x)) :
    sh.words ([sep].intercalate (l.map text)) = some (l.map word) := by
  rw [words]
  induction l with
  | nil => rfl
  | cons x l ih =>
    obtain ⟨hx, hl⟩ := forall_mem_cons.mp h
    cases l with
    | nil =>
      have := hx []
      rw [append_nil] at this
      simp only [map_cons, map_nil, intercalate_singleton]
      rw [this]
      rfl
    | cons y l =>
      rw [map_cons, map_cons, intercalate_cons_cons, append_assoc, hx,
        singleton_append, split, if_neg hquote, if_neg hescape, if_pos hblank,
        ← map_cons, ih hl]
      rfl

end Shell

/-! ### Argument vectors -/

/-- The characters with a meaning when a line is split into the arguments of a process. -/
structure Argv (α : Type*) where
  quote : α
  escape : α
  blank : α → Bool
  escape_ne_quote : escape ≠ quote

namespace Argv

variable {α : Type*} [DecidableEq α] (av : Argv α)

/-- The arguments of the rest of a line: `inQuotes` tells whether blanks are kept, `n` escape
characters were read last, and `w` is the argument that was begun, without them. In front of a quote
two of them give one, and one that is left makes the quote a character of the argument. -/
def argsFrom : Bool → Nat → Option (List α) → List α → List (List α)
  | _, n, w, [] => (w.map (· ++ List.replicate n av.escape)).toList
  | inQuotes, n, w, c :: s =>
    if c = av.escape then argsFrom inQuotes (n + 1) (some (w.getD [])) s
    else if c = av.quote then
      let w := w.getD [] ++ List.replicate (n / 2) av.escape
      if n % 2 = 0 then argsFrom (!inQuotes) 0 (some w) s
      else argsFrom inQuotes 0 (some (w ++ [c])) s
    else if av.blank c ∧ inQuotes = false then
      (w.map (· ++ List.replicate n av.escape)).toList ++ argsFrom false 0 none s
    else argsFrom inQuotes 0 (some (w.getD [] ++ List.replicate n av.escape ++ [c])) s

/-- The arguments of a line. -/
def args (s : List α) : List (List α) := av.argsFrom false 0 none s

/-- The rest of a quoted argument: a run of escape characters, of which `n` were written, is doubled
in front of a quote and at the end. -/
def quotedFrom : Nat → List α → List α
  | n, [] => List.replicate n av.escape ++ [av.quote]
  | n, c :: s =>
    if c = av.escape then c :: quotedFrom (n + 1) s
    else if c = av.quote then List.replicate (n + 1) av.escape ++ c :: quotedFrom 0 s
    else c :: quotedFrom 0 s

/-- Put an argument into quotes. -/
def quoted (s : List α) : List α := av.quote :: av.quotedFrom 0 s

variable {av}

lemma argsFrom_escapes (inQuotes : Bool) (n m : Nat) (w s : List α) :
    av.argsFrom inQuotes n (some w) (List.replicate m av.escape ++ s) =
      av.argsFrom inQuotes (n + m) (some w) s := by
  induction m generalizing n with
  | zero => rfl
  | succ m ih =>
    rw [List.replicate_succ, List.cons_append, argsFrom, if_pos rfl, Option.getD_some, ih,
      Nat.add_right_comm, Nat.add_assoc]

lemma argsFrom_quote (inQuotes : Bool) (n : Nat) (w s : List α) :
    av.argsFrom inQuotes (2 * n) (some w) (av.quote :: s) =
      av.argsFrom (!inQuotes) 0 (some (w ++ List.replicate n av.escape)) s := by
  rw [argsFrom, if_neg av.escape_ne_quote.symm, if_pos rfl]
  simp

lemma argsFrom_escapedQuote (inQuotes : Bool) (n : Nat) (w s : List α) :
    av.argsFrom inQuotes (2 * n + 1) (some w) (av.quote :: s) =
      av.argsFrom inQuotes 0 (some (w ++ List.replicate n av.escape ++ [av.quote])) s := by
  have hhalf : (2 * n + 1) / 2 = n := by omega
  have hodd : (2 * n + 1) % 2 ≠ 0 := by omega
  rw [argsFrom, if_neg av.escape_ne_quote.symm, if_pos rfl]
  simp only [Option.getD_some, hhalf, if_neg hodd]

/-- The run of escape characters that was read last belongs to the argument. -/
lemma argsFrom_quotedFrom (n : Nat) (w s t : List α) :
    av.argsFrom true n (some w) (av.quotedFrom n s ++ t) =
      av.argsFrom false 0 (some (w ++ List.replicate n av.escape ++ s)) t := by
  induction s generalizing n w with
  | nil =>
    rw [quotedFrom, List.append_assoc, argsFrom_escapes, ← Nat.two_mul, List.singleton_append,
      argsFrom_quote, List.append_nil]
    rfl
  | cons c s ih =>
    rw [quotedFrom]
    split_ifs with hescape hquote
    · subst hescape
      rw [List.cons_append, argsFrom, if_pos rfl, Option.getD_some, ih, List.replicate_succ',
        List.append_assoc, List.append_assoc, List.append_assoc, List.singleton_append]
    · subst hquote
      rw [List.append_assoc, argsFrom_escapes, ← Nat.add_assoc, ← Nat.two_mul, List.cons_append,
        argsFrom_escapedQuote, ih, List.replicate_zero, List.append_nil, List.append_assoc,
        List.append_assoc, List.append_assoc, List.singleton_append]
    · rw [List.cons_append, argsFrom, if_neg hescape, if_neg hquote, if_neg (by simp),
        Option.getD_some, ih, List.replicate_zero, List.append_nil, List.append_assoc,
        List.append_assoc, List.append_assoc, List.singleton_append]

/-- A quoted argument is read as the argument. -/
theorem args_quoted (s : List α) : av.args (av.quoted s) = [s] := by
  have := @argsFrom_quotedFrom _ _ av 0 [] s []
  rw [List.append_nil] at this
  rw [args, quoted, argsFrom, if_neg av.escape_ne_quote.symm, if_pos rfl, if_pos rfl]
  simpa [argsFrom] using this

lemma argsFrom_plain (n : Nat) (w : List α) {s : List α}
    (h : ∀ c ∈ s, c ≠ av.quote ∧ av.blank c = false) :
    av.argsFrom false n (some w) s = [w ++ List.replicate n av.escape ++ s] := by
  induction s generalizing n w with
  | nil => simp [argsFrom]
  | cons c s ih =>
    obtain ⟨⟨hquote, hblank⟩, hs⟩ := List.forall_mem_cons.mp h
    rw [argsFrom, if_neg hquote]
    split_ifs with hescape hb
    · subst hescape
      rw [Option.getD_some, ih _ _ hs, List.replicate_succ']
      simp
    · simp [hblank] at hb
    · rw [Option.getD_some, ih _ _ hs]
      simp

/-- An argument without quotes and blanks is read as it is. -/
theorem args_plain {s : List α} (hne : s ≠ []) (h : ∀ c ∈ s, c ≠ av.quote ∧ av.blank c = false) :
    av.args s = [s] := by
  obtain ⟨c, s, rfl⟩ := List.exists_cons_of_ne_nil hne
  obtain ⟨⟨hquote, hblank⟩, hs⟩ := List.forall_mem_cons.mp h
  rw [args, argsFrom, if_neg hquote]
  split_ifs with hescape hb
  · subst hescape
    exact argsFrom_plain 1 [] hs
  · simp [hblank] at hb
  · exact argsFrom_plain 0 [c] hs

end Argv
