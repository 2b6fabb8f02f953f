import Reninja.BuildLog.Format
import Reninja.BuildLog.Lines

/-!
# Writing a build log and reading it back

`Load` reads back what `RecordCommand` wrote: every line that is not too long for it gives its
entry, and of the lines of one output the last counts.
-/

namespace Reninja.BuildLog

open LineReader List

variable {es : List LogEntry}

namespace Entries

variable {l : List LogEntry} {e : LogEntry}

lemma find?_of_nodup (hnodup : (l.map (·.output)).Nodup) (h : e ∈ l) :
    l.find? (·.output = e.output) = some e := by
  induction l with
  | nil => simp at h
  | cons f l ih =>
    rw [map_cons, nodup_cons] at hnodup
    rcases mem_cons.mp h with rfl | hl
    · simp
    · have hne : f.output ≠ e.output := fun heq => hnodup.1 (heq ▸ mem_map_of_mem hl)
      simpa [find?_cons, hne] using ih hnodup.2 hl

lemma lookup_eq_some {es : Entries} {p : Path} :
    es.lookup p = some e ↔ e ∈ es.list ∧ e.output = p := by
  constructor
  · intro h
    exact ⟨mem_of_find?_eq_some h, by simpa using find?_some h⟩
  · rintro ⟨hmem, rfl⟩
    exact find?_of_nodup es.nodup hmem

lemma mem_replaced {e f : LogEntry} : f ∈ replaced l e ↔ f = e ∨ f ∈ l ∧ f.output ≠ e.output := by
  unfold replaced
  split
  next hmem =>
    rw [mem_map]
    constructor
    · rintro ⟨g, hg, rfl⟩
      split
      next => exact .inl rfl
      next hne => exact .inr ⟨hg, hne⟩
    · rintro (rfl | ⟨hf, hne⟩)
      · obtain ⟨g, hg, hout⟩ := mem_map.mp hmem
        exact ⟨g, hg, if_pos hout⟩
      · exact ⟨f, hf, if_neg hne⟩
  next hnew =>
    rw [mem_append, mem_singleton, or_comm]
    refine or_congr_right ⟨fun hf => ⟨hf, fun hout => hnew ?_⟩, fun hf => hf.1⟩
    rw [← hout]
    exact mem_map_of_mem hf

@[simp]
lemma lookup_put (es : Entries) (e : LogEntry) (p : Path) :
    (es.put e).lookup p = if e.output = p then some e else es.lookup p := by
  ext f
  rw [lookup_eq_some, put, mem_replaced]
  split
  next hp =>
    rw [Option.some.injEq]
    constructor
    · rintro ⟨rfl | ⟨-, hne⟩, hf⟩
      · rfl
      · exact absurd (hf.trans hp.symm) hne
    · rintro rfl
      exact ⟨.inl rfl, hp⟩
  next hp =>
    rw [lookup_eq_some]
    constructor
    · rintro ⟨rfl | ⟨hf, -⟩, hout⟩
      · exact absurd hout hp
      · exact ⟨hf, hout⟩
    · rintro ⟨hf, rfl⟩
      exact ⟨.inr ⟨hf, fun hout => hp hout.symm⟩, rfl⟩

@[simp]
lemma lookup_empty (p : Path) : ({} : Entries).lookup p = none := rfl

end Entries

def lastFor (es : List LogEntry) (p : Path) : Option LogEntry := es.reverse.find? (·.output = p)

lemma lastFor_cons (e : LogEntry) (es : List LogEntry) (p : Path) :
    lastFor (e :: es) p = (lastFor es p).or (if e.output = p then some e else none) := by
  rw [lastFor, reverse_cons, find?_append, lastFor, find?_singleton]
  simp

lemma lastFor_entries (es : Entries) (p : Path) : lastFor es.list p = es.lookup p := by
  have hreverse : lastFor es.list p = Entries.lookup ⟨es.list.reverse, by
      rw [map_reverse]
      exact nodup_reverse.mpr es.nodup⟩ p := rfl
  rw [hreverse]
  ext e
  simp [Entries.lookup_eq_some]

/-- The entry that a line gives: none if the line is too long or cannot be read. -/
def givenEntry (line : GoString) : Option LogEntry :=
  if maxLineLength < line.length then none
  else
    match parseEntry line with
    | .ok r => r
    | .error _ => none

/-- `Load` takes a line as it should. -/
structure Loading.Takes (st : Loading) (e : Option LogEntry) (st' : Loading) : Prop where
  version : st'.version = st.version
  lookup (p : Path) : st'.entries.lookup p =
    (e.filter (·.output = p)).or (st.entries.lookup p)

/-- After the signature, a line is passed over, or gives its entry, or cannot be read. -/
lemma takeLine_cases {st : Loading} (hv : st.version ≠ 0) (line : GoString) :
    (∃ st', st.takeLine line = .ok st' ∧ st.Takes (givenEntry line) st') ∨
      (line.length ≤ maxLineLength ∧ ∃ err, parseEntry line = .error err ∧
        st.takeLine line = .error err) := by
  by_cases hlen : maxLineLength < line.length
  · left
    refine ⟨st, by simp only [Loading.takeLine, if_pos hlen], rfl, fun p => ?_⟩
    simp [givenEntry, hlen]
  · cases hp : parseEntry line with
    | error err =>
      right
      exact ⟨Nat.not_lt.mp hlen, err, rfl, by
        simp only [Loading.takeLine, if_neg hlen, if_neg hv, hp]⟩
    | ok r =>
      left
      have hgiven : givenEntry line = r := by simp only [givenEntry, if_neg hlen, hp]
      rw [hgiven]
      cases r with
      | none =>
        exact ⟨st, by simp only [Loading.takeLine, if_neg hlen, if_neg hv, hp], rfl,
          fun p => by simp⟩
      | some e =>
        refine ⟨st.put e, by simp only [Loading.takeLine, if_neg hlen, if_neg hv, hp], rfl,
          fun p => ?_⟩
        rw [Loading.put, Entries.lookup_put]
        by_cases hout : e.output = p <;> simp [Option.filter, hout]

lemma takeLines_readable (lines : List GoString) (st : Loading) (hv : st.version ≠ 0)
    (h : ∀ line ∈ lines, (dropCarriageReturn line).length ≤ maxLineLength →
      ∃ r, parseEntry (dropCarriageReturn line) = .ok r) :
    ∃ st', st.takeLines lines = .ok st' ∧ st'.version = st.version ∧
      ∀ p, st'.entries.lookup p =
        (lastFor (lines.filterMap (givenEntry ∘ dropCarriageReturn)) p).or
          (st.entries.lookup p) := by
  induction lines generalizing st with
  | nil => exact ⟨st, rfl, rfl, fun p => rfl⟩
  | cons line lines ih =>
    obtain ⟨hline, hlines⟩ := forall_mem_cons.mp h
    rcases takeLine_cases hv (dropCarriageReturn line) with ⟨st₁, hst₁, htakes⟩ |
      ⟨hlen, err, herr, -⟩
    · obtain ⟨st', hst', hversion, hlookup⟩ :=
        ih st₁ (by rw [htakes.version]; exact hv) hlines
      refine ⟨st', ?_, hversion.trans htakes.version, fun p => ?_⟩
      · rw [Loading.takeLines, foldlM_cons, hst₁]
        exact hst'
      · rw [hlookup, htakes.lookup, ← Option.or_assoc]
        congr 1
        cases hgiven : givenEntry (dropCarriageReturn line) with
        | none => simp [hgiven]
        | some e =>
          rw [filterMap_cons_some (by simpa using hgiven), lastFor_cons]
          by_cases hout : e.output = p <;> simp [Option.filter, hout]
    · obtain ⟨r, hr⟩ := hline hlen
      rw [herr] at hr
      cases hr

lemma scanSignature_fileSignature : scanSignature fileSignature = some 7 := by decide +kernel

lemma takeLine_fileSignature :
    ({} : Loading).takeLine (dropCarriageReturn fileSignature) = .ok { version := 7 } := by
  have hcr : dropCarriageReturn fileSignature = fileSignature := by decide +kernel
  have hlen : ¬ maxLineLength < fileSignature.length := by decide +kernel
  simp only [Loading.takeLine, hcr, if_neg hlen, scanSignature_fileSignature]
  rfl

lemma load_signature (body : GoString) :
    load (some (fileSignature ++ newline :: body)) =
      (loadText body [] { version := 7 }).bind fun st =>
        .ok { entries := st.entries
              needsRecompaction := decide (st.version ≠ 0 ∧ (st.version < currentVersion ∨
                100 < st.totalEntryCount ∧ st.uniqueEntryCount * 3 < st.totalEntryCount))
              file := some (fileSignature ++ newline :: body) } := by
  have hline : newline ∉ fileSignature := by decide +kernel
  have hloop : loadLoop ((fileSignature ++ newline :: body).length + 1)
      (fileSignature ++ newline :: body) [] {} = loadText body [] { version := 7 } := by
    rw [← loadText, loadText_line hline, nil_append, takeLine_fileSignature]
    rfl
  simp only [load, hloop]
  cases loadText body [] { version := 7 } <;> rfl

/-- The file of some entries is loaded with the last entry for each path, the entries of too long
lines apart. -/
lemma load_fileOf (h : ∀ e ∈ es, tab ∉ e.output ∧ newline ∉ e.output) :
    ∃ log, load (some (Log.fileOf es)) = .ok log ∧ ∀ p, log.entries.lookup p =
      lastFor (es.filter fun e => (formatLine e).length ≤ maxLineLength) p := by
  have hbody : es.flatMap writeEntry = (es.map formatLine).flatMap (· ++ [newline]) ++ [] := by
    rw [flatMap_map, append_nil]
    rfl
  have hlines : ∀ line ∈ es.map formatLine, newline ∉ line := by
    intro line hline
    obtain ⟨e, he, rfl⟩ := mem_map.mp hline
    exact newline_notMem_formatLine (h e he).2
  have hparse : ∀ e ∈ es, parseEntry (dropCarriageReturn (formatLine e)) = .ok (some e) := by
    intro e he
    rw [dropCarriageReturn_formatLine, parseEntry_formatLine (h e he).1]
  obtain ⟨st, hst, -, hlookup⟩ := takeLines_readable (es.map formatLine)
    { version := 7 } (by decide) (by
      intro line hline _
      obtain ⟨e, he, rfl⟩ := mem_map.mp hline
      exact ⟨_, hparse e he⟩)
  have hload : loadText (es.flatMap writeEntry) [] { version := 7 } = .ok st := by
    rw [hbody, loadText_lines hlines (by simp), hst]
    simp [Except.bind, takeTail, pieces]
  refine ⟨_, by rw [Log.fileOf, append_assoc, singleton_append, load_signature, hload]; rfl,
    fun p => ?_⟩
  simp only
  rw [hlookup, Entries.lookup_empty, Option.or_none, filterMap_map]
  congr 1
  rw [← filterMap_eq_filter]
  refine filterMap_congr fun e he => ?_
  simp only [Function.comp_apply, givenEntry, hparse e he, Option.guard]
  rw [dropCarriageReturn_formatLine]
  by_cases hlen : maxLineLength < (formatLine e).length
  · rw [if_pos hlen, if_neg (by simpa using hlen)]
  · rw [if_neg hlen, if_pos (by simpa using hlen)]

/-! ### Recording -/

namespace Log

/-- The log has written these entries, or has not been opened yet. -/
def Wrote (log : Log) (es : List LogEntry) : Prop :=
  log.isOpen = true ∧ log.file = some (fileOf es) ∨
    log.isOpen = false ∧ log.file = none ∧ es = []

lemma Wrote.recordEntry {log : Log} (h : log.Wrote es) (e : LogEntry) :
    (log.recordEntry e).Wrote (es ++ [e]) := by
  have hfile : fileOf es ++ writeEntry e = fileOf (es ++ [e]) := by simp [fileOf]
  left
  rcases h with ⟨hopen, hlog⟩ | ⟨hclosed, hlog, rfl⟩
  · simp [Log.recordEntry, openForWriteIfNeeded, hopen, hlog, hfile]
  · rw [← hfile]
    simp [Log.recordEntry, openForWriteIfNeeded, hclosed, hlog, fileOf]

lemma Wrote.foldl_recordEntry {log : Log} (h : log.Wrote es) (new : List LogEntry) :
    (new.foldl Log.recordEntry log).Wrote (es ++ new) := by
  induction new generalizing log es with
  | nil => simpa using h
  | cons e new ih =>
    rw [foldl_cons, append_cons]
    exact ih (h.recordEntry e)

lemma recorded_wrote (hashCommand : GoString → UInt64) (calls : List Call) :
    (recorded hashCommand calls).Wrote (calls.flatMap (·.entries hashCommand)) := by
  have hall : ∀ {log : Log} {es : List LogEntry}, log.Wrote es →
      (calls.foldl (recordCommand hashCommand) log).Wrote
        (es ++ calls.flatMap (·.entries hashCommand)) := by
    induction calls with
    | nil => simp
    | cons c calls ih =>
      intro log es h
      rw [foldl_cons, flatMap_cons, ← append_assoc]
      exact ih (h.foldl_recordEntry _)
  exact hall (.inr ⟨rfl, rfl, rfl⟩)

lemma recorded_file (hashCommand : GoString → UInt64) (calls : List Call) :
    (recorded hashCommand calls).close.file =
      some (fileOf (calls.flatMap (·.entries hashCommand))) := by
  rcases recorded_wrote hashCommand calls with ⟨hopen, hlog⟩ | ⟨hclosed, hlog, hes⟩
  · simp [close, openForWriteIfNeeded, hopen, hlog]
  · simp [close, openForWriteIfNeeded, hclosed, hlog, hes, fileOf]

end Log

def lastCall (calls : List Call) (p : Path) : Option Call := calls.reverse.find? (p ∈ ·.outputs)

lemma lastFor_append (es fs : List LogEntry) (p : Path) :
    lastFor (es ++ fs) p = (lastFor fs p).or (lastFor es p) := by
  simp [lastFor]

lemma lastFor_call (hashCommand : GoString → UInt64) (c : Call) (p : Path) :
    lastFor (c.entries hashCommand) p =
      if p ∈ c.outputs then some (c.entry hashCommand p) else none := by
  unfold Call.entries
  induction c.outputs with
  | nil => rfl
  | cons q outputs ih =>
    rw [map_cons, lastFor_cons, ih]
    by_cases hp : p ∈ outputs
    · simp [hp]
    · by_cases hq : q = p
      · simp [hp, hq, Call.entry]
      · have hpq : p ≠ q := fun h => hq h.symm
        simp [hp, hpq, hq, Call.entry]

lemma lastFor_calls (hashCommand : GoString → UInt64) (calls : List Call) (p : Path) :
    lastFor (calls.flatMap (·.entries hashCommand)) p =
      (lastCall calls p).map (·.entry hashCommand p) := by
  induction calls with
  | nil => rfl
  | cons c calls ih =>
    rw [flatMap_cons, lastFor_append, ih, lastFor_call, lastCall, lastCall, reverse_cons,
      find?_append, find?_singleton]
    cases calls.reverse.find? (p ∈ ·.outputs) with
    | some c' => simp
    | none => by_cases hp : p ∈ c.outputs <;> simp [hp]

/-- **Round trip.** The file that some calls of `RecordCommand` wrote is loaded with the entry of
the last call for each output, and with no other entries. -/
theorem load_recorded (hashCommand : GoString → UInt64) (calls : List Call)
    (hpath : ∀ c ∈ calls, ∀ p ∈ c.outputs, tab ∉ p ∧ newline ∉ p)
    (hlen : ∀ c ∈ calls, ∀ e ∈ c.entries hashCommand, (formatLine e).length ≤ maxLineLength) :
    ∃ log, load (Log.recorded hashCommand calls).close.file = .ok log ∧
      ∀ p, log.entries.lookup p = (lastCall calls p).map (·.entry hashCommand p) := by
  have hwritten : ∀ e ∈ calls.flatMap (·.entries hashCommand), tab ∉ e.output ∧
      newline ∉ e.output := by
    intro e he
    obtain ⟨c, hc, he⟩ := mem_flatMap.mp he
    obtain ⟨p, hp, rfl⟩ := mem_map.mp he
    exact hpath c hc p hp
  obtain ⟨log, hload, hlookup⟩ := load_fileOf hwritten
  refine ⟨log, by rw [Log.recorded_file]; exact hload, fun p => ?_⟩
  rw [hlookup, filter_eq_self.mpr, lastFor_calls]
  intro e he
  obtain ⟨c, hc, he⟩ := mem_flatMap.mp he
  exact decide_eq_true (hlen c hc e he)

def callOf (outputs : List Path) (startTime endTime mtime : Int64) : Call where
  world := { edges := fun _ => { outputs := outputs } }
  edge := 0
  startTime := startTime
  endTime := endTime
  mtime := mtime

theorem load_recorded_twice :
    ∃ log, load (Log.recorded (fun _ => 255)
        [callOf [[111]] 1 2 3, callOf [[112], [111]] (-1) 25 300]).close.file = .ok log ∧
      log.entries.lookup [111] = some ⟨[111], -1, 25, 300, 255⟩ ∧
      log.entries.lookup [113] = none := by
  obtain ⟨log, hload, hlookup⟩ := load_recorded (fun _ => 255)
    [callOf [[111]] 1 2 3, callOf [[112], [111]] (-1) 25 300] (by decide)
    (by decide)
  exact ⟨log, hload, hlookup [111], hlookup [113]⟩

end Reninja.BuildLog
