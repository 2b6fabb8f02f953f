import Reninja.BuildLog.RoundTrip

/-!
# Rewriting a build log

`Recompact` and `Restat` write a new file from the entries in memory, in the order of a range over
the map. The lines of a loaded log can be written again, so the new file is loaded with the entries
that are in memory then, unless `Restat` makes a line too long with its new time.
-/

namespace Reninja.BuildLog

open LineReader List

variable {st st' : Loading} {line : GoString} {es : Entries}

/-- The entry can be written to a line that is read back. -/
structure LogEntry.Writable (e : LogEntry) : Prop where
  tab : tab ∉ e.output
  newline : newline ∉ e.output
  length : (formatLine e).length ≤ maxLineLength

def Loading.Writable (st : Loading) : Prop := ∀ e ∈ st.entries.list, e.Writable

lemma newline_notMem_dropCarriageReturn (h : newline ∉ line) :
    newline ∉ dropCarriageReturn line := by
  unfold dropCarriageReturn
  split
  next => exact fun hmem => h (mem_of_mem_dropLast hmem)
  next => exact h

lemma Loading.Writable.takeLine (hst : st.Writable) (hline : newline ∉ line)
    (h : st.takeLine line = .ok st') : st'.Writable := by
  unfold Loading.takeLine at h
  split at h
  next =>
    cases h
    exact hst
  next hlen =>
    split at h
    next =>
      split at h
      next => cases h
      next =>
        split at h
        next => cases h
        next =>
          cases h
          exact hst
    next =>
      split at h
      next => cases h
      next =>
        cases h
        exact hst
      next e hparse =>
        cases h
        intro f hf
        rcases Entries.mem_replaced.mp hf with rfl | ⟨hf, -⟩
        · obtain ⟨htab, hnewline⟩ := notMem_output hline hparse
          exact ⟨htab, hnewline,
            Nat.le_trans (formatLine_length_le hparse) (Nat.not_lt.mp hlen)⟩
        · exact hst f hf

lemma Loading.Writable.takeLines (hst : st.Writable) {lines : List GoString}
    (hlines : ∀ line ∈ lines, LineReader.newline ∉ line) (h : st.takeLines lines = .ok st') :
    st'.Writable := by
  induction lines generalizing st with
  | nil =>
    cases h
    exact hst
  | cons line lines ih =>
    obtain ⟨hline, hlines⟩ := forall_mem_cons.mp hlines
    rw [Loading.takeLines, foldlM_cons] at h
    cases htake : st.takeLine (dropCarriageReturn line) with
    | error e => simp [htake, bind, Except.bind] at h
    | ok st₁ =>
      rw [htake] at h
      exact ih (hst.takeLine (newline_notMem_dropCarriageReturn hline) htake) hlines h

/-- Whatever is in the file, a loaded entry can be written again. -/
lemma load_writable {file : Option GoString} {log : Log} (h : load file = .ok log) :
    ∀ e ∈ log.entries.list, e.Writable := by
  cases file with
  | none =>
    cases h
    intro e he
    exact absurd he not_mem_nil
  | some text =>
    obtain ⟨lines, tail, -, hlines, htail, rfl⟩ := exists_lines text
    simp only [load] at h
    rw [← loadText, loadText_lines hlines htail] at h
    have hempty : Loading.Writable {} := fun e he => absurd he not_mem_nil
    cases hst : ({} : Loading).takeLines lines with
    | error err => simp [hst, Except.bind] at h
    | ok st =>
      simp only [hst, Except.bind] at h
      cases hst' : takeTail tail [] st with
      | error err => simp [hst'] at h
      | ok st' =>
        simp only [hst', Except.ok.injEq] at h
        subst h
        have hwritable := hempty.takeLines hlines hst
        unfold takeTail at hst'
        simp only at hst'
        split at hst'
        next => exact hwritable.takeLine htail hst'
        next =>
          split at hst'
          next =>
            cases hst'
            exact hwritable
          next => cases hst'

/-! ### The new file -/

/-- A map that is written out is read back, the entries of too long lines apart. -/
lemma load_entries (h : ∀ e ∈ es.list, tab ∉ e.output ∧ newline ∉ e.output) :
    ∃ fresh, load (some (Log.fileOf es.list)) = .ok fresh ∧
      ((∀ p, fresh.entries.lookup p = es.lookup p) ↔
        ∀ e ∈ es.list, (formatLine e).length ≤ maxLineLength) := by
  obtain ⟨fresh, hload, hlookup⟩ := load_fileOf h
  refine ⟨fresh, hload, fun hall e he => ?_, fun hall p => ?_⟩
  · have hfound : lastFor (es.list.filter fun e => (formatLine e).length ≤ maxLineLength)
        e.output = some e := by
      rw [← hlookup, hall]
      exact Entries.lookup_eq_some.mpr ⟨he, rfl⟩
    have hmem := mem_reverse.mp (mem_of_find?_eq_some hfound)
    simpa using (mem_filter.mp hmem).2
  · rw [hlookup, filter_eq_self.mpr fun e he => decide_eq_true (hall e he), lastFor_entries]

namespace Log

lemma mem_arrange {order : MapOrder} {k : Nat} {e : LogEntry} :
    e ∈ order.arrange k es.list ↔ e ∈ es.list :=
  (order.arrange_perm k es.list).mem_iff

lemma lookup_recompact (order : MapOrder) (k : Nat) (isPathDead : Path → Bool) (log : Log)
    (p : Path) : (log.recompact order k isPathDead).entries.lookup p =
      if isPathDead p then none else log.entries.lookup p := by
  ext e
  simp only [recompact, Entries.lookup_eq_some, mem_filter, mem_arrange, Bool.not_eq_true']
  split
  next hdead =>
    simp only [reduceCtorEq, iff_false]
    rintro ⟨⟨-, hlive⟩, rfl⟩
    rw [hdead] at hlive
    cases hlive
  next hlive =>
    rw [Entries.lookup_eq_some]
    constructor
    · rintro ⟨⟨he, -⟩, rfl⟩
      exact ⟨he, rfl⟩
    · rintro ⟨he, rfl⟩
      exact ⟨⟨he, by simpa using hlive⟩, rfl⟩

/-- The entries after `Restat`: those that the filter names, or all if it is empty, carry the time
that the disk reports. -/
def Restatted {ε : Type} (stat : Path → Except ε Int64) (outputs : List Path)
    (old new : Option LogEntry) : Prop :=
  match old with
  | none => new = none
  | some e =>
    if outputs = [] ∨ e.output ∈ outputs then
      ∃ mtime, stat e.output = .ok mtime ∧ new = some { e with mtime := mtime }
    else new = some e

section

variable {ε : Type} {stat : Path → Except ε Int64} {outputs : List Path}

lemma restatEntry_restatted {e e' : LogEntry} (h : restatEntry stat outputs e = .ok e') :
    Restatted stat outputs (some e) (some e') := by
  unfold restatEntry at h
  split at h
  next hskip =>
    cases h
    simp only [Restatted, if_neg (not_or.mpr hskip)]
  next hskip =>
    split at h
    next => cases h
    next mtime hstat =>
      cases h
      simp only [Restatted]
      rw [if_pos (by
        by_cases hnil : outputs = []
        · exact .inl hnil
        · exact .inr (not_not.mp fun hmem => hskip ⟨hnil, hmem⟩))]
      exact ⟨mtime, hstat, rfl⟩

lemma restatEntries_mem {es es' : List LogEntry} (h : restatEntries stat outputs es = .ok es') :
    (∀ e ∈ es, ∃ e' ∈ es', restatEntry stat outputs e = .ok e') ∧
      ∀ e' ∈ es', ∃ e ∈ es, restatEntry stat outputs e = .ok e' := by
  induction es generalizing es' with
  | nil =>
    cases h
    simp
  | cons e es ih =>
    simp only [restatEntries] at h
    cases he : restatEntry stat outputs e with
    | error err => simp [he] at h
    | ok e' =>
      cases hes : restatEntries stat outputs es with
      | error err => simp [he, hes] at h
      | ok tail =>
        simp only [he, hes, Except.ok.injEq] at h
        subst h
        obtain ⟨hleft, hright⟩ := ih hes
        constructor
        · intro f hf
          rcases mem_cons.mp hf with rfl | hf
          · exact ⟨e', mem_cons_self, he⟩
          · obtain ⟨f', hf', hrestat⟩ := hleft f hf
            exact ⟨f', mem_cons_of_mem _ hf', hrestat⟩
        · intro f' hf'
          rcases mem_cons.mp hf' with rfl | hf'
          · exact ⟨e, mem_cons_self, he⟩
          · obtain ⟨f, hf, hrestat⟩ := hright f' hf'
            exact ⟨f, mem_cons_of_mem _ hf, hrestat⟩

variable {order : MapOrder} {k : Nat} {log new : Log}

lemma restat_ok (h : log.restat order k stat outputs = .ok new) :
    restatEntries stat outputs (order.arrange k log.entries.list) = .ok new.entries.list ∧
      new.file = some (fileOf new.entries.list) := by
  unfold restat at h
  split at h
  next => cases h
  next es hes =>
    cases h
    exact ⟨hes, rfl⟩

lemma lookup_restat (h : log.restat order k stat outputs = .ok new) (p : Path) :
    Restatted stat outputs (log.entries.lookup p) (new.entries.lookup p) := by
  obtain ⟨hleft, hright⟩ := restatEntries_mem (restat_ok h).1
  cases hold : log.entries.lookup p with
  | none =>
    cases hnew : new.entries.lookup p with
    | none => rfl
    | some e' =>
      obtain ⟨he', rfl⟩ := Entries.lookup_eq_some.mp hnew
      obtain ⟨e, he, hrestat⟩ := hright e' he'
      rw [Entries.lookup_eq_some.mpr ⟨mem_arrange.mp he, (restatEntry_output hrestat).symm⟩] at hold
      cases hold
  | some e =>
    obtain ⟨he, rfl⟩ := Entries.lookup_eq_some.mp hold
    obtain ⟨e', he', hrestat⟩ := hleft e (mem_arrange.mpr he)
    rw [Entries.lookup_eq_some.mpr ⟨he', restatEntry_output hrestat⟩]
    exact restatEntry_restatted hrestat

lemma restat_total (hstat : ∀ p, ∃ mtime, stat p = .ok mtime) (order : MapOrder) (k : Nat)
    (outputs : List Path) (log : Log) : ∃ new, log.restat order k stat outputs = .ok new := by
  have hentries : ∀ es, ∃ es', restatEntries stat outputs es = .ok es' := by
    intro es
    induction es with
    | nil => exact ⟨[], rfl⟩
    | cons e es ih =>
      obtain ⟨es', hes⟩ := ih
      obtain ⟨e', he⟩ : ∃ e', restatEntry stat outputs e = .ok e' := by
        obtain ⟨mtime, hmtime⟩ := hstat e.output
        unfold restatEntry
        split
        next => exact ⟨e, rfl⟩
        next => exact ⟨{ e with mtime := mtime }, by rw [hmtime]⟩
      exact ⟨e' :: es', by simp only [restatEntries, he, hes]⟩
  obtain ⟨es', hes⟩ := hentries (order.arrange k log.entries.list)
  unfold restat
  split
  next err herr =>
    rw [hes] at herr
    cases herr
  next => exact ⟨_, rfl⟩

def ReadsBack (log : Log) : Prop :=
  ∃ fresh, load log.file = .ok fresh ∧ ∀ p, fresh.entries.lookup p = log.entries.lookup p

lemma restat_readsBack_iff (hwritable : ∀ e ∈ log.entries.list, e.Writable)
    (hrestat : log.restat order k stat outputs = .ok new) :
    new.ReadsBack ↔ ∀ e ∈ new.entries.list, (formatLine e).length ≤ maxLineLength := by
  obtain ⟨hentries, hfile⟩ := restat_ok hrestat
  have hpath : ∀ e ∈ new.entries.list, tab ∉ e.output ∧ newline ∉ e.output := by
    intro e he
    obtain ⟨old, hold, hout⟩ := (restatEntries_mem hentries).2 e he
    have hw := hwritable old (mem_arrange.mp hold)
    rw [restatEntry_output hout]
    exact ⟨hw.tab, hw.newline⟩
  obtain ⟨fresh, hfresh, hiff⟩ := load_entries hpath
  rw [← hiff, ReadsBack, hfile, hfresh]
  simp

end

end Log

/-- **Rewriting.** `Recompact` keeps the entries whose path is not dead, and `Restat` keeps all
entries and gives those in its filter the time on disk, in memory and in the new file, as long as
no line of the new file is too long for `Load`. After `Recompact` none is. -/
theorem rewritten_reads_back (hashCommand : GoString → UInt64) (calls : List Call) (log : Log)
    (hload : load (Log.recorded hashCommand calls).close.file = .ok log) (order : MapOrder)
    (k : Nat) :
    (∀ isPathDead : Path → Bool,
      (∀ p, (log.recompact order k isPathDead).entries.lookup p =
        if isPathDead p then none else log.entries.lookup p) ∧
      (log.recompact order k isPathDead).ReadsBack) ∧
    ∀ (ε : Type) (stat : Path → Except ε Int64) (outputs : List Path) (new : Log),
      log.restat order k stat outputs = .ok new →
      (∀ p, Log.Restatted stat outputs (log.entries.lookup p) (new.entries.lookup p)) ∧
      (new.ReadsBack ↔ ∀ e ∈ new.entries.list, (formatLine e).length ≤ maxLineLength) := by
  have hwritable := load_writable hload
  constructor
  · intro isPathDead
    have hlive : ∀ e ∈ (log.recompact order k isPathDead).entries.list, e.Writable := by
      intro e he
      exact hwritable e (Log.mem_arrange.mp (mem_filter.mp he).1)
    obtain ⟨fresh, hfresh, hiff⟩ := load_entries fun e he =>
      ⟨(hlive e he).tab, (hlive e he).newline⟩
    exact ⟨Log.lookup_recompact order k isPathDead log, fresh, hfresh,
      hiff.mpr fun e he => (hlive e he).length⟩
  · intro ε stat outputs new hrestat
    exact ⟨Log.lookup_restat hrestat, Log.restat_readsBack_iff hwritable hrestat⟩

lemma load_one {p : Path} (h : tab ∉ p ∧ newline ∉ p)
    (hlen : (formatLine ⟨p, 0, 0, 0, 0⟩).length ≤ maxLineLength) :
    ∃ log, load (Log.recorded (fun _ => 0) [callOf [p] 0 0 0]).close.file = .ok log ∧
      ∀ q, log.entries.lookup q = if p = q then some ⟨p, 0, 0, 0, 0⟩ else none := by
  have hentries : [callOf [p] 0 0 0].flatMap (·.entries fun _ => 0) = [⟨p, 0, 0, 0, 0⟩] := rfl
  have hpaths : ∀ e ∈ [(⟨p, 0, 0, 0, 0⟩ : LogEntry)], tab ∉ e.output ∧ newline ∉ e.output := by
    simpa using h
  obtain ⟨log, hload, hlookup⟩ := load_fileOf hpaths
  refine ⟨log, by rw [Log.recorded_file, hentries]; exact hload, fun q => ?_⟩
  rw [hlookup, filter_cons_of_pos (by simpa using hlen), filter_nil, lastFor_cons]
  rfl

def statTen : Path → Except Unit Int64 := fun _ => .ok 10

lemma statTen_total : ∀ p, ∃ mtime, statTen p = .ok mtime := fun _ => ⟨10, rfl⟩

theorem rewritten_reads_back_one : ∃ log new,
    load (Log.recorded (fun _ => 0) [callOf [[111]] 0 0 0]).close.file = .ok log ∧
      log.restat .inOrder 0 statTen [] = .ok new ∧
      (log.recompact .inOrder 0 fun _ => false).ReadsBack ∧
      new.entries.lookup [111] = some ⟨[111], 0, 0, 10, 0⟩ ∧ new.ReadsBack := by
  obtain ⟨log, hload, hlookup⟩ := load_one (show tab ∉ [111] ∧ newline ∉ [111] by decide)
    (by decide)
  obtain ⟨new, hnew⟩ := Log.restat_total statTen_total .inOrder 0 [] log
  obtain ⟨hrecompact, hrestat⟩ := rewritten_reads_back _ _ log hload .inOrder 0
  obtain ⟨hrestatted, hiff⟩ := hrestat Unit statTen [] new hnew
  have hnewLookup : ∀ q, new.entries.lookup q =
      if [111] = q then some ⟨[111], 0, 0, 10, 0⟩ else none := by
    intro q
    have hq := hrestatted q
    rw [hlookup] at hq
    split at hq
    next hp =>
      obtain ⟨mtime, hmtime, heq⟩ := hq
      cases hmtime
      rw [heq, if_pos hp]
    next hp =>
      rw [if_neg hp]
      exact hq
  refine ⟨log, new, hload, hnew, (hrecompact _).2, hnewLookup [111], hiff.mpr fun e he => ?_⟩
  have he' := Entries.lookup_eq_some.mpr ⟨he, rfl⟩
  rw [hnewLookup] at he'
  split at he'
  next =>
    rw [← Option.some.inj he']
    decide
  next => cases he'

lemma length_formatLine_zero (p : Path) (t : Int64) :
    (formatLine ⟨p, 0, 0, t, 0⟩).length = p.length + (formatInt t).length + 7 := by
  have hzero : formatInt 0 = [48] := by decide
  have hhash : Numerals.format 16 (0 : UInt64).toNat = [48] := by decide
  simp only [formatLine_eq, hzero, hhash, length_append, length_cons, length_nil]
  omega

/-- For a path with which the line is as long as it may be, `Restat` writes a time with one digit
more, and the entry is not loaded again. -/
lemma restat_loses {p : Path} (hpath : tab ∉ p ∧ newline ∉ p) (hlen : p.length = 255992) :
    ∃ log new, load (Log.recorded (fun _ => 0) [callOf [p] 0 0 0]).close.file = .ok log ∧
      log.restat .inOrder 0 statTen [] = .ok new ∧ ¬ new.ReadsBack := by
  have hzero : (formatInt 0).length = 1 := by decide
  have hten : (formatInt 10).length = 2 := by decide
  obtain ⟨log, hload, hlookup⟩ := load_one hpath (by
    rw [length_formatLine_zero, hzero, hlen]
    decide)
  obtain ⟨new, hnew⟩ := Log.restat_total statTen_total .inOrder 0 [] log
  refine ⟨log, new, hload, hnew, fun hreads => ?_⟩
  have hnewLookup := Log.lookup_restat hnew p
  rw [hlookup, if_pos rfl] at hnewLookup
  obtain ⟨mtime, hmtime, heq⟩ := hnewLookup
  cases hmtime
  have hle := (Log.restat_readsBack_iff (load_writable hload) hnew).mp hreads _
    (Entries.lookup_eq_some.mp heq).1
  rw [length_formatLine_zero, hten, hlen] at hle
  exact absurd hle (by decide)

theorem restat_loses_entry : ∃ p log new,
    load (Log.recorded (fun _ => 0) [callOf [p] 0 0 0]).close.file = .ok log ∧
      log.restat .inOrder 0 statTen [] = .ok new ∧ ¬ new.ReadsBack := by
  have hfree : ∀ c : UInt8, c ≠ 97 → c ∉ replicate 255992 97 := by
    intro c hc hmem
    exact hc (eq_of_mem_replicate hmem)
  exact ⟨_, restat_loses ⟨hfree tab (by decide), hfree newline (by decide)⟩
    length_replicate⟩

end Reninja.BuildLog
