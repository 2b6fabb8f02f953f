import Reninja.BuildLog.RoundTrip

/-!
# Loading a log that ends inside a line

A write that was cut off leaves a file whose last line has no newline. `Load` takes what is left of
that line for a line, or returns an error if it ends where the reader's buffer does.
-/

namespace Reninja.BuildLog

open LineReader

variable {st st' : Loading} {line : GoString}

/-- The numbers in a line are numbers, if it is a line that `Load` looks into. -/
def Readable (line : GoString) : Prop :=
  line.length ≤ maxLineLength → ∀ a b c d h, line.splitOn tab = [a, b, c, d, h] →
    (parseInt a).isSome ∧ (parseInt b).isSome ∧ (parseInt c).isSome ∧ (scanHex h).isSome

def completeLines (text : GoString) : List GoString :=
  (text.splitOn newline).dropLast.map dropCarriageReturn

def tornLine (text : GoString) : GoString :=
  (text.splitOn newline).getLast (List.splitOn_ne_nil newline text)

def completeEntry (text : GoString) (p : Path) : Option LogEntry :=
  lastFor ((completeLines text).filterMap givenEntry) p

/-- The torn line is used up by whole pieces, an even number of them; or it can be read, and gives
no entry that the complete lines do not give. -/
def HarmlessTail (text : GoString) : Prop :=
  if (pieces bufferSize (tornLine text).length (tornLine text)).2 = [] then
    (pieces bufferSize (tornLine text).length (tornLine text)).1 % 2 = 0
  else
    Readable (tornLine text) ∧
      ∀ e, givenEntry (tornLine text) = some e → completeEntry text e.output = some e

lemma readable_iff :
    Readable line ↔ (line.length ≤ maxLineLength → ∃ r, parseEntry line = .ok r) := by
  refine imp_congr_right fun _ => ?_
  unfold parseEntry
  split
  next a b c d h hsplit =>
    rw [hsplit]
    constructor
    · intro hread
      obtain ⟨ha, hb, hc, hh⟩ := hread a b c d h rfl
      obtain ⟨a', ha⟩ := Option.isSome_iff_exists.mp ha
      obtain ⟨b', hb⟩ := Option.isSome_iff_exists.mp hb
      obtain ⟨c', hc⟩ := Option.isSome_iff_exists.mp hc
      obtain ⟨h', hh⟩ := Option.isSome_iff_exists.mp hh
      simp only [ha, hb, hc, hh]
      exact ⟨_, rfl⟩
    · rintro ⟨r, hr⟩ a' b' c' d' h' heq
      cases heq
      cases ha : parseInt a with
      | none => simp [ha] at hr
      | some _ =>
      cases hb : parseInt b with
      | none => simp [ha, hb] at hr
      | some _ =>
      cases hc : parseInt c with
      | none => simp [ha, hb, hc] at hr
      | some _ =>
      cases hh : scanHex h with
      | none => simp [ha, hb, hc, hh] at hr
      | some _ => exact ⟨rfl, rfl, rfl, rfl⟩
  next hfields =>
    constructor
    · exact fun _ => ⟨none, rfl⟩
    · exact fun _ a b c d h hsplit => absurd hsplit (hfields a b c d h)

lemma readable_of_takeLine (hv : st.version ≠ 0) (h : st.takeLine line = .ok st') :
    Readable line := by
  rw [readable_iff]
  intro hlen
  cases hparse : parseEntry line with
  | ok r => exact ⟨r, rfl⟩
  | error err =>
    simp only [Loading.takeLine, if_neg (Nat.not_lt.mpr hlen), if_neg hv, hparse] at h
    cases h

lemma takeLines_unreadable {lines : List GoString} {st : Loading} (hv : st.version ≠ 0)
    (h : ¬ ∀ line ∈ lines, Readable (dropCarriageReturn line)) :
    ∃ err, st.takeLines lines = .error err := by
  induction lines generalizing st with
  | nil => exact absurd (fun line hline => absurd hline List.not_mem_nil) h
  | cons line lines ih =>
    rw [Loading.takeLines, List.foldlM_cons]
    rcases takeLine_cases hv (dropCarriageReturn line) with ⟨st', hst', htakes⟩ | ⟨-, err, -, herr⟩
    · rw [hst']
      refine ih (by rw [htakes.version]; exact hv) fun hlines => h ?_
      exact List.forall_mem_cons.mpr ⟨readable_of_takeLine hv hst', hlines⟩
    · rw [herr]
      exact ⟨err, rfl⟩

/-- A line changes nothing if it gives no entry but one that is there already. -/
lemma takes_same_iff {given : Option LogEntry} (h : st.Takes given st') :
    (∀ p, st'.entries.lookup p = st.entries.lookup p) ↔
      ∀ e, given = some e → st.entries.lookup e.output = some e := by
  constructor
  · rintro hsame e rfl
    rw [← hsame, h.lookup]
    simp [Option.filter]
  · intro hgiven p
    rw [h.lookup]
    cases given with
    | none => rfl
    | some e =>
      by_cases hout : e.output = p
      · subst hout
        simp [Option.filter, hgiven e rfl]
      · simp [Option.filter, hout]

def LoadsComplete (body : GoString) : Prop :=
  ∃ log, load (some (fileSignature ++ newline :: body)) = .ok log ∧
    ∀ p, log.entries.lookup p = completeEntry body p

/-- The load of a file, in terms of the loop over what follows the signature. -/
lemma loadsComplete_iff (body : GoString) :
    LoadsComplete body ↔ ∃ st, loadText body [] { version := 7 } = .ok st ∧
      ∀ p, st.entries.lookup p = completeEntry body p := by
  rw [LoadsComplete, load_signature]
  cases loadText body [] { version := 7 } with
  | error err => simp [Except.bind]
  | ok st => simp [Except.bind]

lemma harmlessTail_iff {body : GoString} {st : Loading} (hv : st.version ≠ 0)
    (hentry : ∀ p, st.entries.lookup p = completeEntry body p) :
    HarmlessTail body ↔ ∃ st', takeTail (tornLine body) [] st = .ok st' ∧
      ∀ p, st'.entries.lookup p = completeEntry body p := by
  simp only [HarmlessTail, takeTail, List.nil_append, ne_eq, ite_not]
  split
  next =>
    split
    next heven => simpa [heven] using hentry
    next hodd => simp [hodd]
  next =>
    rcases takeLine_cases hv (tornLine body) with ⟨st', hst', htakes⟩ | ⟨hlen, err, hparse, herr⟩
    · simp only [hst', Except.ok.injEq, exists_eq_left', ← hentry, takes_same_iff htakes,
        and_iff_right (readable_of_takeLine hv hst')]
    · have hunreadable : ¬ Readable (tornLine body) := by
        rw [readable_iff]
        intro hread
        obtain ⟨r, hr⟩ := hread hlen
        rw [hparse] at hr
        cases hr
      simp [herr, hunreadable]

/-- **Torn tail.** `Load` of a log that was cut off anywhere after its signature succeeds with
exactly the entries of the complete lines if and only if these can all be read and the torn line is
harmless. -/
theorem loadsComplete_iff_harmless (body : GoString) :
    LoadsComplete body ↔ (∀ line ∈ completeLines body, Readable line) ∧ HarmlessTail body := by
  obtain ⟨lines, tail, hsplit, hlines, htail, hbody⟩ := exists_lines body
  have hcomplete : completeLines body = lines.map dropCarriageReturn := by
    simp [completeLines, hsplit]
  have htorn : tornLine body = tail := by simp [tornLine, hsplit]
  have hv : ({ version := 7 } : Loading).version ≠ 0 := by decide
  have hloop : loadText body [] { version := 7 } =
      (({ version := 7 } : Loading).takeLines lines).bind (takeTail tail []) := by
    rw [← loadText_lines hlines htail, ← hbody]
  rw [loadsComplete_iff, hloop, hcomplete, List.forall_mem_map]
  by_cases hread : ∀ line ∈ lines, Readable (dropCarriageReturn line)
  · obtain ⟨st, hst, hversion, hlookup⟩ := takeLines_readable lines { version := 7 } hv
      fun line hline => readable_iff.mp (hread line hline)
    have hentry : ∀ p, st.entries.lookup p = completeEntry body p := by
      intro p
      rw [hlookup, completeEntry, hcomplete, List.filterMap_map]
      simp
    rw [hst, and_iff_right hread, harmlessTail_iff (by rw [hversion]; exact hv) hentry, htorn]
    rfl
  · obtain ⟨err, herr⟩ := takeLines_unreadable hv hread
    simp [herr, hread, Except.bind]

/-- A log cut off before the hash of its only line is not loaded at all, and one cut off inside the
hash is loaded with another hash. -/
theorem torn_hash : ∃ text,
    (Log.recorded (fun _ => 255) [callOf [[111]] 1 2 3]).close.file = some text ∧
    (∃ body, fileSignature ++ newline :: body <+: text ∧
      load (some (fileSignature ++ newline :: body)) = .error .commandHash) ∧
    ∃ body log, fileSignature ++ newline :: body <+: text ∧ completeLines body = [] ∧
      load (some (fileSignature ++ newline :: body)) = .ok log ∧
      log.entries.lookup [111] = some ⟨[111], 1, 2, 3, 15⟩ := by
  have hfile : Log.fileOf [⟨[111], 1, 2, 3, 255⟩] =
      fileSignature ++ newline :: [49, 9, 50, 9, 51, 9, 111, 9, 102, 102, 10] := by
    have hline : writeEntry ⟨[111], 1, 2, 3, 255⟩ =
        [49, 9, 50, 9, 51, 9, 111, 9, 102, 102, 10] := by decide
    simp [Log.fileOf, hline]
  have hentry : loadText [49, 9, 50, 9, 51, 9, 111, 9, 102] [] { version := 7 } =
      .ok (Loading.put { version := 7 } ⟨[111], 1, 2, 3, 15⟩) := rfl
  refine ⟨_, (Log.recorded_file _ _).trans (congrArg some hfile),
    ⟨[49, 9, 50, 9, 51, 9, 111, 9], ⟨[102, 102, 10], by simp⟩, ?_⟩,
    [49, 9, 50, 9, 51, 9, 111, 9, 102], ?_⟩
  · rw [load_signature]
    rfl
  · rw [load_signature, hentry]
    exact ⟨_, ⟨[102, 10], by simp⟩, by decide, rfl, by decide⟩

end Reninja.BuildLog
