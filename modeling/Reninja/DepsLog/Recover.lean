import Reninja.DepsLog.RoundTrip

/-!
# Recovering a damaged deps log

`Load` cuts the file off behind the last record that it could read completely. A record that was
read completely but is not accepted stays in the file, and everything that is appended behind it
is out of reach for the next `Load`.
-/

namespace Reninja.DepsFile

open Program List

variable {known : List Path} {s t : Loader} {bytes : List UInt8} {file : List UInt8}
  {xs : List Entry}
variable {r : Nat × Bool} {isDeps : Bool}

/-! ### Where reading ends -/

/-- The record at the beginning of some bytes, if it is there completely: whether it is one of
dependencies, its content, and what follows it. -/
def cutRecord (bytes : List UInt8) : Option (Bool × List UInt8 × List UInt8) :=
  if bytes.length < 4 then none
  else
    let size := fieldAt bytes 0 % 2 ^ 31
    let record := (bytes.drop 4).take size
    if maxRecordSize < size ∨ record.length < size then none
    else some (2 ^ 31 ≤ fieldAt bytes 0, record, (bytes.drop 4).drop size)

/-- What is at the beginning, with something else behind it. -/
def Head.withRest (rest : List UInt8) : Head → Head
  | .stops => .stops
  | .panics => .panics
  | .entry x _ => .entry x rest

/-- How many bytes the loader counts as read, and whether reading ended at a record that was there
completely but was not accepted. -/
def reading : Nat → List Path → List UInt8 → Nat × Bool
  | 0, _, _ => (0, false)
  | fuel + 1, known, bytes =>
    match parseHead known bytes with
    | .stops =>
      match cutRecord bytes with
      | none => (0, false)
      | some (_, record, _) => (record.length + 4, true)
    | .panics => (0, false)
    | .entry x rest =>
      let r := reading fuel (known ++ x.path?.toList) rest
      (bytes.length - rest.length + r.1, r.2)

def EndsAtBadRecord (file : List UInt8) : Prop :=
  (reading ((file.drop 16).length + 1) [] (file.drop 16)).2 = true

instance (file : List UInt8) : Decidable (EndsAtBadRecord file) :=
  inferInstanceAs (Decidable (_ = _))

lemma parseHead_eq (known : List Path) (bytes : List UInt8) :
    parseHead known bytes = match cutRecord bytes with
      | none => .stops
      | some (isDeps, record, rest) =>
        if isDeps then parseDeps record rest else parsePath known record rest := by
  simp only [parseHead, cutRecord]
  split
  next => rfl
  next =>
    split
    next => rfl
    next => simp only [decide_eq_true_eq]

lemma parseDeps_withRest (record rest rest' : List UInt8) :
    parseDeps record rest' = (parseDeps record rest).withRest rest' := by
  unfold parseDeps
  split_ifs <;> rfl

lemma parsePath_withRest (known : List Path) (record rest rest' : List UInt8) :
    parsePath known record rest' = (parsePath known record rest).withRest rest' := by
  simp only [parsePath]
  split_ifs <;> rfl

lemma cutRecord_split {bytes record rest : List UInt8}
    (h : cutRecord bytes = some (isDeps, record, rest)) :
    ∃ b, bytes = b ++ rest ∧ b.length = record.length + 4 ∧
      ∀ rest', cutRecord (b ++ rest') = some (isDeps, record, rest') := by
  unfold cutRecord at h
  split at h
  next => cases h
  next hlen =>
    simp only at h
    split at h
    next => cases h
    next hsize =>
      generalize hn : fieldAt bytes 0 % 2 ^ 31 = size at h hsize
      simp only [Option.some.injEq, Prod.mk.injEq] at h
      obtain ⟨rfl, rfl, rfl⟩ := h
      have hfull : ((bytes.drop 4).take size).length = size := by
        have : ((bytes.drop 4).take size).length ≤ size := length_take_le _ _
        omega
      have hsplit : bytes = (bytes.take 4 ++ (bytes.drop 4).take size) ++
          (bytes.drop 4).drop size := by
        rw [append_assoc, take_append_drop, take_append_drop]
      have hfour : (bytes.take 4).length = 4 := by
        rw [length_take]
        omega
      refine ⟨bytes.take 4 ++ (bytes.drop 4).take size, hsplit, by
        rw [length_append, hfour]; omega, fun rest' => ?_⟩
      have hfield : fieldAt ((bytes.take 4 ++ (bytes.drop 4).take size) ++ rest') 0 =
          fieldAt bytes 0 := by
        simp only [fieldAt, drop_zero]
        rw [append_assoc, take_append_of_le_length (by omega), take_take, Nat.min_self]
      have hdrop : ((bytes.take 4 ++ (bytes.drop 4).take size) ++ rest').drop 4 =
          (bytes.drop 4).take size ++ rest' := by
        rw [append_assoc, drop_append_of_le_length (by omega),
          drop_of_length_le (by omega), nil_append]
      have htake : ((bytes.drop 4).take size ++ rest').take size = (bytes.drop 4).take size := by
        rw [take_append_of_le_length (by omega), take_take, Nat.min_self]
      have hrest : ((bytes.drop 4).take size ++ rest').drop size = rest' := by
        rw [drop_append_of_le_length (by omega), drop_of_length_le (by omega),
          nil_append]
      have hlong : ¬ ((bytes.take 4 ++ (bytes.drop 4).take size) ++ rest').length < 4 := by
        simp only [length_append, hfour]
        omega
      rw [cutRecord, if_neg hlong]
      simp only [hfield, hdrop, hn, htake, hrest, if_neg hsize]

lemma parseHead_split (known : List Path) {bytes record rest : List UInt8}
    (h : cutRecord bytes = some (isDeps, record, rest)) :
    ∃ b, bytes = b ++ rest ∧ b.length = record.length + 4 ∧
      ∀ rest', parseHead known (b ++ rest') = (parseHead known bytes).withRest rest' := by
  obtain ⟨b, hbytes, hlen, hcut⟩ := cutRecord_split h
  refine ⟨b, hbytes, hlen, fun rest' => ?_⟩
  rw [parseHead_eq, hcut, parseHead_eq, h]
  simp only
  split
  next => exact parseDeps_withRest record rest rest'
  next => exact parsePath_withRest known record rest rest'

lemma cutRecord_of_entry {bytes rest : List UInt8} {x : Entry}
    (h : parseHead known bytes = .entry x rest) :
    ∃ isDeps record, cutRecord bytes = some (isDeps, record, rest) := by
  rw [parseHead_eq] at h
  cases hcut : cutRecord bytes with
  | none => simp [hcut] at h
  | some r =>
    obtain ⟨isDeps, record, rest'⟩ := r
    obtain rfl : rest' = rest := by
      simp only [hcut] at h
      split at h
      next =>
        unfold parseDeps at h
        split_ifs at h
        exact (Head.entry.inj h).2
      next =>
        simp only [parsePath] at h
        split_ifs at h
        exact (Head.entry.inj h).2
    exact ⟨isDeps, record, rfl⟩

/-- The bytes that are counted as read: those of the records, and then those of the record that was
not accepted, if there is one. -/
structure Recovered (known : List Path) (bytes : List UInt8) (xs : List Entry)
    (r : Nat × Bool) (good bad : List UInt8) : Prop where
  kept : bytes.take r.1 = good ++ bad
  spells : Spells known good xs
  clean : r.2 = false → bad = []
  stops : r.2 = true → ∀ rest, parseHead (known ++ xs.filterMap Entry.path?) (bad ++ rest) = .stops

lemma exists_recovered (fuel : Nat) (hfuel : bytes.length < fuel)
    (h : parse fuel known bytes = (xs, true)) :
    ∃ good bad, Recovered known bytes xs (reading fuel known bytes) good bad := by
  induction fuel generalizing known bytes xs with
  | zero => exact absurd hfuel (Nat.not_lt_zero _)
  | succ fuel ih =>
    rw [parse] at h
    rw [reading]
    cases hhead : parseHead known bytes with
    | panics => simp [hhead] at h
    | stops =>
      simp only [hhead, Prod.mk.injEq, and_true] at h
      subst h
      simp only
      cases hcut : cutRecord bytes with
      | none => exact ⟨[], [], rfl, .nil _, fun _ => rfl, fun hbad => by cases hbad⟩
      | some r =>
        obtain ⟨isDeps, record, rest⟩ := r
        obtain ⟨b, hbytes, hlen, hsame⟩ := parseHead_split known hcut
        refine ⟨[], b, ?_, .nil _, fun hclean => (by cases hclean), fun _ rest' => ?_⟩
        · simp only
          rw [nil_append, hbytes, ← hlen, take_left]
        · rw [filterMap_nil, append_nil, hsame, hhead]
          rfl
    | entry x rest =>
      simp only [hhead, Prod.mk.injEq] at h
      obtain ⟨rfl, hok⟩ := h
      have hlt := (parseHead_fits hhead).shorter
      obtain ⟨good, bad, hrec⟩ := ih (show rest.length < fuel by omega)
        (Prod.ext rfl hok)
      obtain ⟨isDeps, record, hcut⟩ := cutRecord_of_entry hhead
      obtain ⟨b, hbytes, -, hsame⟩ := parseHead_split known hcut
      refine ⟨b ++ good, bad, ?_, .cons (fun rest' => ?_) hrec.spells, hrec.clean,
        fun hbad rest' => ?_⟩
      · have hlen : bytes.length - rest.length = b.length := by
          rw [hbytes, length_append]
          omega
        simp only
        rw [hlen, append_assoc, ← hrec.kept]
        conv_lhs => rw [hbytes]
        rw [take_append, take_of_length_le (Nat.le_add_right _ _),
          Nat.add_sub_cancel_left]
      · rw [hsame, hhead]
        rfl
      · rw [filterMap_path?_cons, ← append_assoc]
        exact hrec.stops hbad rest'

lemma Recovered.parseAll {bytes good bad : List UInt8} (h : Recovered known bytes xs r good bad) :
    DepsFile.parseAll known (good ++ bad) = (xs, true) := by
  have hstops : DepsFile.parseAll (known ++ xs.filterMap Entry.path?) bad = ([], true) := by
    cases hr : r.2 with
    | false =>
      rw [h.clean hr]
      exact parseAll_nil _
    | true =>
      have := h.stops hr []
      rw [append_nil] at this
      exact parseAll_stops this
  rw [h.spells.parseAll, hstops, append_nil]

lemma Recovered.parseAll_bad {bytes good bad : List UInt8} (h : Recovered known bytes xs r good bad)
    (hbad : r.2 = true) (rest : List UInt8) :
    DepsFile.parseAll known (good ++ (bad ++ rest)) = (xs, true) := by
  rw [h.spells.parseAll, parseAll_stops (h.stops hbad rest), append_nil]

/-! ### What the loader leaves behind -/

def Kept (s t : Loader) : Prop := t.offset = s.offset ∧ t.file = s.file

instance : Std.Refl Kept := ⟨fun _ => ⟨rfl, rfl⟩⟩

instance : IsTrans Loader Kept := ⟨fun _ _ _ h h' => ⟨h'.1.trans h.1, h'.2.trans h.2⟩⟩

lemma stopReading_kept (s : Loader) : Moves Kept s stopReading := ⟨rfl, rfl⟩

lemma loadDeps_kept (s : Loader) (size : Nat) : Moves Kept s (loadDeps size) := by
  rw [loadDeps]
  refine .ite (fun _ => stopReading_kept s) fun _ => ?_
  refine .ite (fun _ => .throw _) fun _ => ?_
  exact ⟨rfl, rfl⟩

lemma dropNul_kept (s : Loader) (k : Nat) : Moves Kept s (dropNul k) := by
  cases k with
  | zero => exact .throw _
  | succ k => exact ⟨rfl, rfl⟩

lemma loadPath_kept (s : Loader) (size : Nat) : Moves Kept s (loadPath size) := by
  rw [loadPath]
  refine .ite (fun _ => stopReading_kept s) fun _ => ?_
  refine .bind (dropNul_kept s _) fun k₁ s₁ _ => ?_
  refine .bind (dropNul_kept s₁ k₁) fun k₂ s₂ _ => ?_
  refine .bind (dropNul_kept s₂ k₂) fun k₃ s₃ _ => .get_bind ?_
  refine .ite (fun _ => stopReading_kept s₃) fun _ => ?_
  exact ⟨rfl, rfl⟩

def Flagged (b : Bool) (t : Loader) : Prop := b = false → t.readFailed = true

lemma stopReading_flagged : Sat (fun _ => True) stopReading Flagged := by
  rintro s b t - h
  cases h
  exact fun _ => rfl

lemma loadDeps_flagged (size : Nat) : Sat (fun _ => True) (loadDeps size) Flagged := by
  rw [loadDeps]
  refine Sat.ite (fun _ => stopReading_flagged) fun _ => Sat.ite (fun _ => Sat.throw _) fun _ => ?_
  rintro s b t - h
  cases h
  intro hb
  cases hb

lemma loadPath_flagged (size : Nat) : Sat (fun _ => True) (loadPath size) Flagged := by
  rw [loadPath]
  refine Sat.ite (fun _ => stopReading_flagged) fun _ => ?_
  refine Sat.bind (Q := fun _ _ => True) (fun _ _ _ _ _ => trivial) fun k₁ => ?_
  refine Sat.bind (Q := fun _ _ => True) (fun _ _ _ _ _ => trivial) fun k₂ => ?_
  refine Sat.bind (Q := fun _ _ => True) (fun _ _ _ _ _ => trivial) fun k₃ => ?_
  refine Sat.bind (Q := fun _ _ => True) (fun _ _ _ _ _ => trivial) fun s => ?_
  refine Sat.ite (fun _ => stopReading_flagged) fun _ => ?_
  rintro s b t - h
  cases h
  intro hb
  cases hb

def span (bytes : List UInt8) : Nat :=
  match cutRecord bytes with
  | none => 0
  | some (_, record, _) => record.length + 4

lemma stopReading_offset {b : Bool} (h : stopReading s = .ok b t) :
    t.file = s.file ∧ Flagged b t ∧ t.offset = s.offset :=
  ⟨((stopReading_kept s).of_ok h).2, stopReading_flagged s b t trivial h,
    ((stopReading_kept s).of_ok h).1⟩

lemma loadSized_offset {b isDeps : Bool} {size : Nat} (h : loadSized isDeps size s = .ok b t) :
    t.file = s.file ∧ Flagged b t ∧ t.offset =
      s.offset + if size ≤ maxRecordSize ∧ size ≤ s.rest.length then size + 4 else 0 := by
  rw [loadSized] at h
  split at h
  next hmax =>
    rw [if_neg (by omega)]
    exact stopReading_offset h
  next hmax =>
    rw [bind_apply, readFull_apply] at h
    by_cases hlen : size ≤ s.rest.length
    · simp only [hlen, decide_true, if_true, bind_apply, modify_apply] at h
      rw [if_pos ⟨by omega, hlen⟩]
      cases isDeps with
      | true =>
        obtain ⟨hoffset, hfile⟩ := (loadDeps_kept _ size).of_ok h
        exact ⟨hfile, loadDeps_flagged size _ b t trivial h, hoffset⟩
      | false =>
        obtain ⟨hoffset, hfile⟩ := (loadPath_kept _ size).of_ok h
        exact ⟨hfile, loadPath_flagged size _ b t trivial h, hoffset⟩
    · simp only [hlen, decide_false] at h
      have hstop : stopReading (s.read size) = .ok b t := h
      obtain ⟨hfile, hflag, hoffset⟩ := stopReading_offset hstop
      rw [if_neg (by omega)]
      exact ⟨hfile, hflag, hoffset⟩

/-- A round of the loop moves behind the record, if it is complete. -/
lemma loadRecord_offset {b : Bool} (h : loadRecord s = .ok b t) :
    t.file = s.file ∧ Flagged b t ∧ t.offset = s.offset + span s.rest := by
  rw [loadRecord, bind_apply, readFull_apply] at h
  by_cases hlen : 4 ≤ s.rest.length
  · simp only [hlen, decide_true, if_true, bind_apply, get_apply] at h
    have hfield : bytesToInt (slice (s.read 4).buf 0 4) = fieldAt s.rest 0 := by
      rw [(HasRead.read s 4).slice (i := 0) (by simp [hlen])]
      simp [fieldAt, take_take]
    rw [hfield] at h
    have hspan : span s.rest = if fieldAt s.rest 0 % 2 ^ 31 ≤ maxRecordSize ∧
        fieldAt s.rest 0 % 2 ^ 31 ≤ (s.rest.drop 4).length then fieldAt s.rest 0 % 2 ^ 31 + 4
        else 0 := by
      rw [span, cutRecord, if_neg (by omega)]
      generalize fieldAt s.rest 0 % 2 ^ 31 = size
      simp only [length_take]
      by_cases hfull : size ≤ maxRecordSize ∧ size ≤ (s.rest.drop 4).length
      · rw [if_pos hfull, if_neg (by omega)]
        simp only [length_take]
        omega
      · rw [if_neg hfull, if_pos (by omega)]
    rw [hspan]
    exact loadSized_offset h
  · simp only [hlen, decide_false] at h
    have hspan : span s.rest = 0 := by
      rw [span, cutRecord, if_pos (by omega)]
    have hstop : stopReading (s.read 4) = .ok b t := h
    obtain ⟨hfile, hflag, hoffset⟩ := stopReading_offset hstop
    rw [hspan]
    exact ⟨hfile, hflag, hoffset⟩

lemma span_of_entry {bytes rest : List UInt8} {x : Entry}
    (h : parseHead known bytes = .entry x rest) : span bytes = bytes.length - rest.length := by
  obtain ⟨isDeps, record, hcut⟩ := cutRecord_of_entry h
  obtain ⟨b, hbytes, hlen, -⟩ := cutRecord_split hcut
  rw [span, hcut]
  simp only
  rw [hbytes, length_append, hlen]
  omega

lemma reading_stops {fuel : Nat} (h : parseHead known bytes = .stops) :
    (reading (fuel + 1) known bytes).1 = span bytes := by
  rw [reading, h, span]
  simp only
  cases cutRecord bytes <;> rfl

lemma loadLoop_offset (fuel : Nat) (hnum : s.log.Numbered) (h : loadLoop fuel s = .ok () t) :
    t.file = s.file ∧ t.readFailed = true ∧
      t.offset = s.offset + (reading fuel s.log.nodes s.rest).1 := by
  induction fuel generalizing s with
  | zero => exact absurd h throw_ok
  | succ fuel ih =>
    obtain ⟨b, s₁, hrecord, h⟩ := bind_ok.mp h
    obtain ⟨hfile, hflag, hoffset⟩ := loadRecord_offset hrecord
    have hfollows := loadRecord_follows hnum
    rw [hrecord] at hfollows
    cases hhead : parseHead s.log.nodes s.rest with
    | panics =>
      rw [hhead] at hfollows
      obtain ⟨msg, t', herr⟩ := hfollows
      cases herr
    | stops =>
      rw [hhead] at hfollows
      obtain ⟨t', hok, -⟩ := hfollows
      cases hok
      cases h
      rw [reading_stops hhead]
      exact ⟨hfile, hflag rfl, hoffset⟩
    | entry x rest =>
      rw [hhead] at hfollows
      obtain ⟨t', hok, hlog, hrest⟩ := hfollows
      cases hok
      have hnum₁ : s₁.log.Numbered := hlog ▸ hnum.apply (parseHead_fits hhead).fresh
      obtain ⟨hfile', hfailed, hoffset'⟩ := ih hnum₁ h
      refine ⟨hfile'.trans hfile, hfailed, ?_⟩
      rw [hoffset', hoffset, reading, hhead, hlog, Log.apply_nodes, hrest, span_of_entry hhead]
      simp only
      omega

lemma eq_header (h : validHeader file = true) : file = header ++ file.drop 16 := by
  simp only [validHeader, Bool.and_eq_true, decide_eq_true_eq] at h
  obtain ⟨⟨hlen, hsignature⟩, hversion⟩ := h
  obtain ⟨a, b, c, d, hbytes⟩ : ∃ a b c d, (file.drop 12).take 4 = [a, b, c, d] := by
    have hfour : ((file.drop 12).take 4).length = 4 := by
      rw [length_take, length_drop]
      omega
    obtain ⟨a, s, hs, hthree⟩ := length_eq_succ_iff.mp hfour
    obtain ⟨b, c, d, rfl⟩ := length_eq_three.mp hthree
    exact ⟨a, b, c, d, hs.symm⟩
  have hfield : (file.drop 12).take 4 = intTo4Bytes currentVersion := by
    rw [fieldAt, hbytes] at hversion
    simp only [bytesToInt, foldr_cons, foldr_nil, currentVersion] at hversion
    have ha : a = 4 := UInt8.toNat_inj.mp (by simp; omega)
    have hb : b = 0 := UInt8.toNat_inj.mp (by simp; omega)
    have hc : c = 0 := UInt8.toNat_inj.mp (by simp; omega)
    have hd : d = 0 := UInt8.toNat_inj.mp (by simp; omega)
    rw [hbytes, ha, hb, hc, hd]
    decide
  have hdrop : (file.drop 12).drop 4 = file.drop 16 := by rw [drop_drop]
  rw [header, ← hsignature, ← hfield, ← hdrop, append_assoc, take_append_drop,
    take_append_drop]

lemma loadHeader_offset {t : Loader} (h : loadHeader (Loader.start file) = .ok none t) :
    t.offset = 16 ∧ t.file = file := by
  simp only [loadHeader, bind_apply, readFull_apply, get_apply] at h
  split at h
  next => cases h
  next =>
    cases h
    exact ⟨rfl, rfl⟩

lemma load_leaves {t : Loader} (h : load (Loader.start (header ++ bytes)) = .ok none t) :
    ∃ xs, parseAll [] bytes = (xs, true) ∧ t.log = Log.replay {} xs ∧
      t.file = header ++ bytes.take (reading (bytes.length + 1) [] bytes).1 := by
  have hreads := load_reads (header ++ bytes)
  rw [fileEntries_header, h] at hreads
  cases hparse : parseAll [] bytes with
  | mk xs ok =>
  rw [hparse] at hreads
  cases ok with
  | false =>
    obtain ⟨msg, t', herr⟩ := hreads
    cases herr
  | true =>
    obtain ⟨err, t', hok, hlog⟩ := hreads
    cases hok
    refine ⟨xs, rfl, hlog, ?_⟩
    obtain ⟨err, s₀, hheader, hvalid, hlog₀, hrest₀⟩ := loadHeader_ok (header ++ bytes)
    obtain rfl := hvalid.mpr (validHeader_header bytes)
    obtain ⟨hoffset₀, hfile₀⟩ := loadHeader_offset hheader
    rw [load, bind_apply, hheader] at h
    obtain ⟨_, _, hget, h⟩ := bind_ok.mp h
    obtain ⟨rfl, rfl⟩ := get_ok.mp hget
    obtain ⟨_, s₁, hloop, h⟩ := bind_ok.mp h
    obtain ⟨_, s₂, hfinish, h⟩ := bind_ok.mp h
    obtain ⟨-, rfl⟩ := pure_ok.mp h
    rw [modify_ok] at hfinish
    subst hfinish
    obtain ⟨hfile, hfailed, hoffset⟩ := loadLoop_offset _ (hlog₀ ▸ .empty) hloop
    have hrest : s₀.rest = bytes := hrest₀
    rw [finishLoad, if_pos hfailed]
    simp only
    rw [hoffset, hoffset₀, hfile, hfile₀, hlog₀, hrest]
    have hlen : header.length = 16 := rfl
    rw [← hlen, take_length_add_append]

/-! ### Appending to a recovered log -/

/-- The log, open for writing after `Load`. -/
def Loader.writer (t : Loader) : Writer := { log := t.log, file := t.file }

lemma exists_recovery {t : Loader} (h : load (Loader.start file) = .ok none t) :
    ∃ xs r good bad, Recovered [] (file.drop 16) xs r good bad ∧ t.log = Log.replay {} xs ∧
      t.file = header ++ (good ++ bad) ∧ (r.2 = true ↔ EndsAtBadRecord file) := by
  have hfile := eq_header ((load_err h).mp rfl)
  rw [hfile] at h
  obtain ⟨xs, hparse, hlog, hleft⟩ := load_leaves h
  obtain ⟨good, bad, hrec⟩ := exists_recovered _ (Nat.lt_succ_self _) hparse
  exact ⟨xs, _, good, bad, hrec, hlog, hleft.trans (congrArg (header ++ ·) hrec.kept), Iff.rfl⟩

section Recovery

variable {bytes good bad : List UInt8} {xs : List Entry} {r : Nat × Bool} {t : Loader}
  (hrec : Recovered [] bytes xs r good bad) (hlog : t.log = Log.replay {} xs)
  (hfile : t.file = header ++ (good ++ bad))

include hrec hlog hfile

lemma reload_same : ∃ t', load (Loader.start t.file) = .ok none t' ∧ t'.log = t.log := by
  obtain ⟨t', hload, hlog'⟩ := load_header hrec.parseAll
  exact ⟨t', by rw [hfile]; exact hload, by rw [hlog', hlog]⟩

lemma writer_content (calls : List Call) : ∃ ys,
    Written (· ∈ calls.flatMap Call.paths) t.log ys ∧
      (t.writer.recordAll calls).log = t.log.replay ys ∧
      (t.writer.recordAll calls).close.file =
        header ++ (good ++ (bad ++ entriesBytes t.log.nodes.length ys)) := by
  have hnum : t.log.Numbered := hlog ▸ replay_numbered hrec.parseAll
  obtain ⟨ys, hys, hlog', hcontent⟩ := t.writer.recordAll_appends calls hnum
  refine ⟨ys, hys, hlog', ?_⟩
  have hcontent₀ : t.writer.content = header ++ (good ++ bad) := by
    have hne : t.file ≠ [] := by
      rw [hfile]
      exact cons_ne_nil _ _
    rw [Writer.content, if_neg fun hempty => hne hempty.2]
    exact hfile
  rw [Writer.close_file, hcontent, hcontent₀]
  simp [Loader.writer]

lemma append_reads_back (hclean : r.2 = false) {calls : List Call}
    (hplain : Plain t.log (calls.flatMap Call.paths)) :
    ∃ t', load (Loader.start (t.writer.recordAll calls).close.file) = .ok none t' ∧
      t'.log = (t.writer.recordAll calls).log := by
  have hnum : t.log.Numbered := hlog ▸ replay_numbered hrec.parseAll
  obtain ⟨ys, hys, hlog', hcontent⟩ := writer_content hrec hlog hfile calls
  have hnodes : t.log.nodes = [] ++ xs.filterMap Entry.path? := by
    rw [hlog, Log.replay_nodes]
  have hspells := hys.spells (hplain.stored hnum hys)
  have happend : Spells [] (good ++ entriesBytes t.log.nodes.length ys) (xs ++ ys) :=
    hrec.spells.append (hnodes ▸ hspells)
  have hparse := happend.parseAll []
  rw [append_nil, parseAll_nil, append_nil] at hparse
  obtain ⟨t', hload, hloaded⟩ := load_header hparse
  refine ⟨t', ?_, by rw [hloaded, hlog', hlog, Log.replay_append]⟩
  rw [hcontent, hrec.clean hclean, nil_append]
  exact hload

lemma append_is_lost (hbad : r.2 = true) (calls : List Call) :
    ∃ t', load (Loader.start (t.writer.recordAll calls).close.file) = .ok none t' ∧
      t'.log = t.log := by
  obtain ⟨ys, -, -, hcontent⟩ := writer_content hrec hlog hfile calls
  obtain ⟨t', hload, hloaded⟩ := load_header (hrec.parseAll_bad hbad _)
  exact ⟨t', by rw [hcontent]; exact hload, by rw [hloaded, hlog]⟩

end Recovery

lemma Writer.record_known (s : Writer) {n : Path} (h : 0 ≤ s.log.ids n) (mtime : Int64) :
    (s.record ⟨n, mtime, []⟩).log.depsAt (s.log.ids n).toNat = some ⟨mtime.toInt, []⟩ := by
  have hid : ¬ s.log.ids n < 0 := by omega
  have hbefore := Log.getDeps_of_nonneg h
  simp only [Writer.record, recordDeps, recordIdIfMissing, recordMissingIds, bind_apply, get_apply,
    if_neg hid, pure_apply, map_nil, hbefore, orThrow, Bool.or_self, Bool.not_false,
    Bool.true_and, decide_eq_true_eq]
  split
  next hsame => exact hsame
  next =>
    rw [writeDeps_log s n mtime.toInt (by decide), Log.depsAt_updateDeps, if_pos rfl]

lemma exists_plain_change {t : Loader} (hnum : t.log.Numbered) : ∃ calls : List Call,
    Plain t.log (calls.flatMap Call.paths) ∧ (t.writer.recordAll calls).log ≠ t.log := by
  cases hnodes : t.log.nodes with
  | nil =>
    refine ⟨[⟨[97], 0, []⟩], fun p hp => .inr ?_, fun hsame => ?_⟩
    · obtain rfl : p = [97] := by simpa [Call.paths] using hp
      refine ⟨storedPath_eq_self (by decide), ?_⟩
      rw [hnodes]
      decide
    · have hnew := Writer.record_new (s := t.writer) hnum
        (show [97] ∉ t.log.nodes by rw [hnodes]; exact not_mem_nil) (by decide)
      have hlength := congrArg (fun log : Log => log.nodes.length) (hnew.symm.trans hsame)
      simp [Log.updateDeps, Log.addNode, Loader.writer] at hlength
  | cons n nodes =>
    have hat : t.log.nodes[0]? = some n := by rw [hnodes]; rfl
    have hid := hnum.ids 0 n hat
    -- One of two times is not the one that the log has.
    obtain ⟨mtime, hmtime⟩ : ∃ mtime : Int64, t.log.depsAt 0 ≠ some ⟨mtime.toInt, []⟩ := by
      by_cases hzero : t.log.depsAt 0 = some ⟨(0 : Int64).toInt, []⟩
      · refine ⟨1, fun hone => ?_⟩
        rw [hzero] at hone
        exact absurd hone (by decide)
      · exact ⟨0, hzero⟩
    refine ⟨[⟨n, mtime, []⟩], fun p hp => .inl ?_, fun hsame => hmtime ?_⟩
    · obtain rfl : p = n := by simpa [Call.paths] using hp
      rw [mem_iff_getElem?]
      exact ⟨0, by rw [getElem?_take, if_pos (by norm_num), hat]⟩
    · have hrecord := t.writer.record_known (n := n) (by
        change 0 ≤ t.log.ids n
        omega) mtime
      have hid' : t.writer.log.ids n = 0 := hid
      rw [hid'] at hrecord
      rw [← hrecord]
      exact congrArg (Log.depsAt · 0) hsame.symm

/-- **Recovery.** What `Load` leaves behind is loaded as before. What plain calls then append is
read back, for all such calls, if and only if reading did not end at a complete record that is not
accepted. -/
theorem load_recovers_iff (file : List UInt8) (t : Loader)
    (h : load (Loader.start file) = .ok none t) :
    (∃ t', load (Loader.start t.file) = .ok none t' ∧ t'.log = t.log) ∧
    ((∀ calls : List Call, Plain t.log (calls.flatMap Call.paths) →
      ∃ t', load (Loader.start (t.writer.recordAll calls).close.file) = .ok none t' ∧
        t'.log = (t.writer.recordAll calls).log) ↔ ¬ EndsAtBadRecord file) := by
  obtain ⟨xs, r, good, bad, hrec, hlog, hfile, hends⟩ := exists_recovery h
  refine ⟨reload_same hrec hlog hfile, fun hall hbad => ?_, fun hgood calls hplain => ?_⟩
  · have hnum : t.log.Numbered := hlog ▸ replay_numbered hrec.parseAll
    obtain ⟨calls, hplain, hchange⟩ := exists_plain_change hnum
    obtain ⟨t₁, hload₁, hlog₁⟩ := hall calls hplain
    obtain ⟨t₂, hload₂, hlog₂⟩ := append_is_lost hrec hlog hfile (hends.mpr hbad) calls
    rw [hload₁] at hload₂
    cases hload₂
    exact hchange (hlog₁.symm.trans hlog₂)
  · have hclean : r.2 = false := by
      cases hr : r.2 with
      | false => rfl
      | true => exact absurd (hends.mp hr) hgood
    exact append_reads_back hrec hlog hfile hclean hplain

def onePathFile : List UInt8 := header ++ (Entry.path [97]).bytes 0

theorem load_recovers_onePath : ∃ t, load (Loader.start onePathFile) = .ok none t ∧
    ∃ t', load (Loader.start (t.writer.recordAll [⟨[98], 7, [[97]]⟩]).close.file) = .ok none t' ∧
      t'.log = (t.writer.recordAll [⟨[98], 7, [[97]]⟩]).log := by
  have hparse : parseAll [] ((Entry.path [97]).bytes 0) = ([.path [97]], true) := by
    decide
  obtain ⟨t, hload, hlog⟩ := load_header hparse
  refine ⟨t, hload, ?_⟩
  refine ((load_recovers_iff onePathFile t hload).2.mpr (by decide)) _ fun p hp => .inr ?_
  have hp : p = [98] ∨ p = [97] := by simpa [Call.paths] using hp
  rw [hlog]
  rcases hp with rfl | rfl
  · exact ⟨storedPath_eq_self (by decide), by decide⟩
  · exact ⟨storedPath_eq_self (by decide), by decide⟩

def badChecksumFile : List UInt8 :=
  header ++ ((Entry.path [97]).bytes 0 ++ (Entry.path [98]).bytes 7)

/-- What is recorded after the damaged file was loaded is gone after the next load. -/
theorem load_hides_appended : ∃ t t', load (Loader.start badChecksumFile) = .ok none t ∧
    load (Loader.start (t.writer.recordAll [⟨[99], 0, []⟩]).close.file) = .ok none t' ∧
    (t.writer.recordAll [⟨[99], 0, []⟩]).log.getDeps [99] = .ok (some ⟨0, []⟩) ∧
    t'.log.getDeps [99] = .ok none := by
  have hparse : parseAll [] ((Entry.path [97]).bytes 0 ++ (Entry.path [98]).bytes 7) =
      ([.path [97]], true) := by
    decide
  obtain ⟨t, hload, hlog⟩ := load_header hparse
  obtain ⟨xs, r, good, bad, hrec, hlog', hfile, hends⟩ := exists_recovery hload
  obtain ⟨t', hload', hlost⟩ := append_is_lost hrec hlog' hfile
    (hends.mpr (by decide)) [⟨[99], 0, []⟩]
  have hrecorded := Writer.record_new (s := t.writer) (n := [99])
    (show t.log.Numbered from hlog ▸ replay_numbered hparse)
    (show [99] ∉ t.log.nodes by rw [hlog]; decide) (by decide)
  refine ⟨t, t', hload, hload', ?_, ?_⟩
  · change (t.writer.record ⟨[99], 0, []⟩).log.getDeps [99] = _
    rw [hrecorded]
    change ((t.log.addNode [99]).updateDeps t.log.nodes.length ⟨0, []⟩).getDeps [99] = _
    rw [hlog]
    decide
  · rw [hlost, hlog]
    decide

end Reninja.DepsFile
