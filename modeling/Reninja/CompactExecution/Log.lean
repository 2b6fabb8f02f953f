import Reninja.Graph.Basic
import Reninja.Library.Traces

/-!
# The compact execution log

`internal/compact_execution`: every edge that ran is written to a log, whose entries refer to each
other by number. Several goroutines record edges at once. What one of them does under the lock, and
every write of an entry, is one step; hashing a file and writing an entry may fail.
-/

namespace Reninja.CompactExecution

structure Digest where
  hash : GoString
  sizeBytes : Int
  deriving DecidableEq

/-- `ExecLogEntry`. A spawn has no number; what is known about it besides the entries it refers to
is in `details`. -/
inductive Entry (D : Type) where
  | file (id : UInt32) (path : Path) (digest : Digest)
  | inputSet (id : UInt32) (inputIds : List UInt32)
  | spawn (details : D) (inputSetId : UInt32) (outputs : List UInt32)
  deriving DecidableEq

variable {D : Type}

namespace Entry

def id? : Entry D → Option UInt32
  | file id _ _ => some id
  | inputSet id _ => some id
  | spawn _ _ _ => none

/-- The numbers that an entry refers to. Zero stands for no inputs. -/
def refs : Entry D → List UInt32
  | file _ _ _ => []
  | inputSet _ ids => ids
  | spawn _ inputSetId outputs => (if inputSetId = 0 then [] else [inputSetId]) ++ outputs

end Entry

def ids (entries : List (Entry D)) : List UInt32 := entries.filterMap Entry.id?

/-- A log that can be read in one pass: no number is given twice, and every entry comes behind those
that it refers to. -/
structure Readable (entries : List (Entry D)) : Prop where
  nodup : (ids entries).Nodup
  refs : ∀ before e after, entries = before ++ e :: after → ∀ id ∈ e.refs, id ∈ ids before

/-- `Log`, with what has been written to its file. -/
structure Log (D : Type) where
  nextID : UInt32 := 1
  fileIDs : Path → Option UInt32 := fun _ => none
  entries : List (Entry D) := []

namespace Log

variable (l : Log D)

def allocID : UInt32 × Log D := (l.nextID, { l with nextID := l.nextID + 1 })

def setFileID (path : Path) (id : UInt32) : Log D :=
  { l with fileIDs := Function.update l.fileIDs path (some id) }

def write (e : Entry D) : Log D := { l with entries := l.entries ++ [e] }

end Log

/-! ### Recording edges -/

/-- Where a goroutine is in `getOrCreateFileEntry`. -/
inductive Stage where
  | lookup
  | hashing
  | writing (id : UInt32) (digest : Digest)

inductive Outcome where
  | goOn (stage : Stage)
  | returned (id : UInt32)
  | failed

/-- One step of `getOrCreateFileEntry`, with the digest of the file, if it has one, and whether a
write succeeds. -/
def getOrCreateFileEntry (l : Log D) (path : Path) (digest : Option Digest) (writes : Bool) :
    Stage → Log D × Outcome
  | .lookup =>
    match l.fileIDs path with
    | some id => (l, .returned id)
    | none => (l, .goOn .hashing)
  | .hashing =>
    match digest with
    | none => (l, .failed)
    | some d =>
      match l.fileIDs path with
      | some id => (l, .returned id)
      | none => (l.allocID.2.setFileID path l.allocID.1, .goOn (.writing l.allocID.1 d))
  | .writing id d =>
    if writes then (l.write (.file id path d), .returned id) else (l, .failed)

/-- What `RecordEdge` reads of an edge that is not phony and whose command can be split. -/
structure Edge (D : Type) where
  details : D
  inputs : List Path
  outputs : List Path

/-- Where a goroutine is in `RecordEdge`: at its inputs, at the input set, for which it has a number
or not, or at its outputs and then the spawn. -/
inductive Thread (D : Type) where
  | idle
  | inputs (edge : Edge D) (stage : Stage) (todo : List Path) (inputIDs : List UInt32)
  | inputSet (edge : Edge D) (inputIDs : List UInt32) (id : Option UInt32)
  | outputs (edge : Edge D) (inputSetID : UInt32) (stage : Stage) (todo : List Path)
      (outputIDs : List UInt32)

/-- Go on with a path, or with its number, or return an error. -/
def Outcome.resume (again : Stage → Thread D) (on : UInt32 → Thread D) : Outcome → Thread D
  | .goOn stage => again stage
  | .returned id => on id
  | .failed => .idle

/-- One step of `RecordEdge`. -/
def Thread.advance (l : Log D) (digest : Option Digest) (writes : Bool) :
    Thread D → Log D × Thread D
  | .idle => (l, .idle)
  | .inputs edge _ [] inputIDs => (l, .inputSet edge inputIDs none)
  | .inputs edge stage (path :: todo) inputIDs =>
    let r := getOrCreateFileEntry l path digest writes stage
    (r.1, r.2.resume (.inputs edge · (path :: todo) inputIDs)
      fun id => .inputs edge .lookup todo (inputIDs ++ [id]))
  | .inputSet edge inputIDs none =>
    if inputIDs = [] then (l, .outputs edge 0 .lookup edge.outputs [])
    else (l.allocID.2, .inputSet edge inputIDs (some l.allocID.1))
  | .inputSet edge inputIDs (some id) =>
    if writes then (l.write (.inputSet id inputIDs), .outputs edge id .lookup edge.outputs [])
    else (l, .idle)
  | .outputs edge inputSetID _ [] outputIDs =>
    if writes then (l.write (.spawn edge.details inputSetID outputIDs), .idle) else (l, .idle)
  | .outputs edge inputSetID stage (path :: todo) outputIDs =>
    let r := getOrCreateFileEntry l path digest writes stage
    (r.1, r.2.resume (.outputs edge inputSetID · (path :: todo) outputIDs)
      fun id => .outputs edge inputSetID .lookup todo (outputIDs ++ [id]))

/-- The log and the goroutines. -/
structure System (D : Type) where
  log : Log D := {}
  threads : Nat → Thread D := fun _ => .idle

/-- A goroutine that is idle calls `RecordEdge`, or one makes a step. -/
inductive Event (D : Type) where
  | call (t : Nat) (edge : Edge D)
  | advance (t : Nat) (digest : Option Digest) (writes : Bool)

def System.setThread (s : System D) (t : Nat) (th : Thread D) : System D :=
  { s with threads := Function.update s.threads t th }

def System.next (s : System D) : Event D → System D
  | .call t edge =>
    match s.threads t with
    | .idle => s.setThread t (.inputs edge .lookup edge.inputs [])
    | _ => s
  | .advance t digest writes =>
    let (log, th) := (s.threads t).advance s.log digest writes
    { s with log }.setThread t th

/-! ### What keeps the log readable -/

/-- The number that a path has got is that of an entry which has been written. -/
def Log.Written (l : Log D) (path : Path) : Prop :=
  ∀ id ∈ l.fileIDs path, id ∈ ids l.entries

/-- The condition on a step of `getOrCreateFileEntry`: where it looks a path up, the entry of the
number it finds has been written, and where it gives a number, not all of them are used up. -/
def Stage.Keeps (l : Log D) (path : Path) : Stage → Prop
  | .lookup => l.Written path
  | .hashing => l.Written path ∧ (l.fileIDs path = none → l.nextID ≠ 0)
  | .writing _ _ => True

def Thread.Keeps (l : Log D) : Thread D → Prop
  | .inputs _ stage (path :: _) _ => stage.Keeps l path
  | .outputs _ _ stage (path :: _) _ => stage.Keeps l path
  | .inputSet _ inputIDs none => inputIDs ≠ [] → l.nextID ≠ 0
  | _ => True

def System.Keeps (s : System D) : Event D → Prop
  | .call _ _ => True
  | .advance t _ _ => (s.threads t).Keeps s.log

instance (l : Log D) (path : Path) : Decidable (l.Written path) :=
  Option.decidableForallMem (l.fileIDs path)

instance (l : Log D) (path : Path) (stage : Stage) : Decidable (stage.Keeps l path) :=
  match stage with
  | .lookup => inferInstanceAs (Decidable (l.Written path))
  | .hashing => inferInstanceAs (Decidable (_ ∧ (_ → _)))
  | .writing _ _ => .isTrue trivial

instance (l : Log D) (th : Thread D) : Decidable (th.Keeps l) :=
  match th with
  | .idle | .inputs _ _ [] _ | .outputs _ _ _ [] _ | .inputSet _ _ (some _) => .isTrue trivial
  | .inputs _ stage (path :: _) _ => inferInstanceAs (Decidable (stage.Keeps l path))
  | .outputs _ _ stage (path :: _) _ => inferInstanceAs (Decidable (stage.Keeps l path))
  | .inputSet _ _ none => inferInstanceAs (Decidable (_ → _))

instance (s : System D) (e : Event D) : Decidable (s.Keeps e) :=
  match e with
  | .call _ _ => .isTrue trivial
  | .advance t _ _ => inferInstanceAs (Decidable ((s.threads t).Keeps s.log))

/-- The number that a goroutine has got for an entry it has not written yet. -/
def Stage.pending : Stage → Option UInt32
  | .writing id _ => some id
  | _ => none

def Thread.pending : Thread D → Option UInt32
  | .inputs _ stage (_ :: _) _ => stage.pending
  | .inputSet _ _ id => id
  | .outputs _ _ stage (_ :: _) _ => stage.pending
  | _ => none

/-- The numbers that a goroutine is going to refer to. -/
def Thread.held : Thread D → List UInt32
  | .idle => []
  | .inputs _ _ _ inputIDs => inputIDs
  | .inputSet _ inputIDs _ => inputIDs
  | .outputs _ inputSetID _ _ outputIDs =>
    (if inputSetID = 0 then [] else [inputSetID]) ++ outputIDs

/-- No number from here on has been given, as long as the counter has not come round. -/
def Log.bound (l : Log D) : Nat := if l.nextID = 0 then 2 ^ 32 else l.nextID.toNat

/-- Numbers are given once, and goroutines hold numbers of entries that have been written. -/
structure System.Good (s : System D) : Prop where
  readable : Readable s.log.entries
  used : ∀ id ∈ ids s.log.entries, id.toNat < s.log.bound
  pending : ∀ t id, (s.threads t).pending = some id → id.toNat < s.log.bound ∧
    id ∉ ids s.log.entries ∧ ∀ t', (s.threads t').pending = some id → t' = t
  held : ∀ t, ∀ id ∈ (s.threads t).held, id ∈ ids s.log.entries

/-- What one step does to the log and its goroutine: nothing, it takes a number, or it writes the
entry with the number that was taken. -/
inductive Effect (l : Log D) (th : Thread D) : Log D → Thread D → Prop
  | same {th' : Thread D} (hpending : th'.pending = none)
      (hheld : ∀ id ∈ th'.held, id ∈ ids l.entries) : Effect l th l th'
  | alloc {l' : Log D} {th' : Thread D} (hnext : l.nextID ≠ 0) (hid : l'.nextID = l.nextID + 1)
      (hentries : l'.entries = l.entries) (hpending : th'.pending = some l.nextID)
      (hheld : ∀ id ∈ th'.held, id ∈ ids l.entries) : Effect l th l' th'
  | write {th' : Thread D} (e : Entry D) (hid : e.id? = th.pending)
      (hrefs : ∀ id ∈ e.refs, id ∈ ids l.entries) (hpending : th'.pending = none)
      (hheld : ∀ id ∈ th'.held, id ∈ ids (l.entries ++ [e])) : Effect l th (l.write e) th'

lemma ids_append (entries entries' : List (Entry D)) :
    ids (entries ++ entries') = ids entries ++ ids entries' := List.filterMap_append

/-- What a step of `getOrCreateFileEntry` does. -/
inductive FileEffect (l : Log D) (path : Path) (stage : Stage) : Log D → Outcome → Prop
  | hash : FileEffect l path stage l (.goOn .hashing)
  | alloc (d : Digest) (hnext : l.nextID ≠ 0) : FileEffect l path stage
      (l.allocID.2.setFileID path l.allocID.1) (.goOn (.writing l.allocID.1 d))
  | found (id : UInt32) (hid : id ∈ ids l.entries) : FileEffect l path stage l (.returned id)
  | write (id : UInt32) (d : Digest) (hpending : stage.pending = some id) :
      FileEffect l path stage (l.write (.file id path d)) (.returned id)
  | failed : FileEffect l path stage l .failed

lemma getOrCreateFileEntry_effect {l : Log D} {path : Path} {stage : Stage}
    (h : stage.Keeps l path) (digest : Option Digest) (writes : Bool) :
    FileEffect l path stage (getOrCreateFileEntry l path digest writes stage).1
      (getOrCreateFileEntry l path digest writes stage).2 := by
  cases stage with
  | lookup =>
    simp only [getOrCreateFileEntry]
    cases hid : l.fileIDs path with
    | none => exact .hash
    | some id => exact .found id (h id hid)
  | hashing =>
    simp only [getOrCreateFileEntry]
    cases digest with
    | none => exact .failed
    | some d =>
      cases hid : l.fileIDs path with
      | none => exact .alloc d (h.2 hid)
      | some id => exact .found id (h.1 id hid)
  | writing id d =>
    simp only [getOrCreateFileEntry]
    cases writes with
    | true => exact .write id d rfl
    | false => exact .failed

@[simp] lemma Thread.pending_inputs_lookup (edge : Edge D) (todo : List Path)
    (inputIDs : List UInt32) : (Thread.inputs edge .lookup todo inputIDs).pending = none := by
  cases todo <;> rfl

@[simp] lemma Thread.pending_outputs_lookup (edge : Edge D) (inputSetID : UInt32)
    (todo : List Path) (outputIDs : List UInt32) :
    (Thread.outputs edge inputSetID .lookup todo outputIDs).pending = none := by
  cases todo <;> rfl

lemma FileEffect.resume {l l' : Log D} {path : Path} {stage : Stage} {o : Outcome}
    (h : FileEffect l path stage l' o) {th : Thread D} (hth : th.pending = stage.pending)
    {again : Stage → Thread D} {on : UInt32 → Thread D}
    (hagain : ∀ stage, (again stage).pending = stage.pending) (hon : ∀ id, (on id).pending = none)
    (heldAgain : ∀ stage, ∀ id ∈ (again stage).held, id ∈ ids l.entries)
    (heldOn : ∀ id, ∀ id' ∈ (on id).held, id' ∈ ids l.entries ∨ id' = id) :
    Effect l th l' (o.resume again on) := by
  cases h with
  | hash => exact .same (hagain _) (heldAgain _)
  | alloc d hnext => exact .alloc hnext rfl rfl (hagain _) (heldAgain _)
  | found id hid =>
    refine .same (hon id) fun id' hid' => ?_
    rcases heldOn id id' hid' with hold | rfl
    · exact hold
    · exact hid
  | write id d hpending =>
    refine .write _ (hth.trans hpending).symm (by simp [Entry.refs]) (hon id) fun id' hid' => ?_
    rw [ids_append]
    exact List.mem_append.mpr ((heldOn id id' hid').imp_right fun heq => by
      simp [ids, Entry.id?, heq])
  | failed => exact .same rfl (by simp [Thread.held, Outcome.resume])

lemma Thread.advance_effect {l : Log D} {th : Thread D} (h : th.Keeps l)
    (hheld : ∀ id ∈ th.held, id ∈ ids l.entries) (digest : Option Digest) (writes : Bool) :
    Effect l th (th.advance l digest writes).1 (th.advance l digest writes).2 := by
  cases th with
  | idle => exact .same rfl hheld
  | inputs edge stage todo inputIDs =>
    cases todo with
    | nil => exact .same rfl hheld
    | cons path todo =>
      refine (getOrCreateFileEntry_effect h digest writes).resume rfl (fun _ => rfl)
        (fun _ => by simp) (fun _ => hheld) fun id id' hid' => ?_
      rw [Thread.held, List.mem_append, List.mem_singleton] at hid'
      exact hid'.imp_left (hheld id')
  | inputSet edge inputIDs id =>
    cases id with
    | none =>
      simp only [Thread.advance]
      by_cases hnil : inputIDs = []
      · rw [if_pos hnil]
        exact .same (by simp) (by simp [Thread.held])
      · rw [if_neg hnil]
        exact .alloc (h hnil) rfl rfl rfl hheld
    | some id =>
      simp only [Thread.advance]
      cases writes with
      | true =>
        refine .write _ rfl hheld (by simp) ?_
        simp [Thread.held, ids, Entry.id?]
      | false => exact .same rfl (by simp [Thread.held])
  | outputs edge inputSetID stage todo outputIDs =>
    cases todo with
    | nil =>
      simp only [Thread.advance]
      cases writes with
      | true => exact .write _ rfl hheld rfl (by simp [Thread.held])
      | false => exact .same rfl (by simp [Thread.held])
    | cons path todo =>
      refine (getOrCreateFileEntry_effect h digest writes).resume rfl (fun _ => rfl)
        (fun _ => by simp) (fun _ => hheld) fun id id' hid' => ?_
      rw [Thread.held, ← List.append_assoc, List.mem_append, List.mem_singleton] at hid'
      exact hid'.imp_left (hheld id')

/-! ### The invariant -/

lemma Log.bound_of_ne {l : Log D} (h : l.nextID ≠ 0) : l.bound = l.nextID.toNat := if_neg h

lemma Log.bound_alloc {l l' : Log D} (h : l.nextID ≠ 0) (hid : l'.nextID = l.nextID + 1) :
    l'.bound = l.bound + 1 := by
  have hlt := l.nextID.toNat_lt
  have hsum : (l.nextID + 1).toNat = (l.nextID.toNat + 1) % 2 ^ 32 := UInt32.toNat_add _ _
  rw [Log.bound_of_ne h, Log.bound, hid]
  split
  next hzero =>
    rw [hzero, UInt32.toNat_zero] at hsum
    omega
  next hne =>
    have hpos : (l.nextID + 1).toNat ≠ 0 := fun hzero => hne (UInt32.toNat_inj.mp hzero)
    omega

lemma ids_singleton (e : Entry D) : ids [e] = e.id?.toList := by
  cases h : e.id? <;> simp [ids, h]

/-- An entry behind a log that can be read, with a number of its own. -/
lemma Readable.append {entries : List (Entry D)} (h : Readable entries) {e : Entry D}
    (hid : ∀ id, e.id? = some id → id ∉ ids entries) (hrefs : ∀ id ∈ e.refs, id ∈ ids entries) :
    Readable (entries ++ [e]) where
  nodup := by
    rw [ids_append, ids_singleton, List.nodup_append]
    refine ⟨h.nodup, by cases e.id? <;> simp, fun id hmem id' hid' heq => ?_⟩
    exact hid id' (by simpa using hid') (heq ▸ hmem)
  refs := by
    intro before e' after heq
    rcases List.eq_nil_or_concat after with rfl | ⟨after, last, rfl⟩
    · obtain ⟨rfl, hlast⟩ := List.append_inj' heq rfl
      obtain rfl := List.singleton_inj.mp hlast
      exact hrefs
    · rw [List.concat_eq_append, ← List.cons_append, ← List.append_assoc] at heq
      exact h.refs before e' after (List.append_inj' heq rfl).1

section

variable {s : System D} {t : Nat} {th : Thread D}

lemma System.threads_setThread (t' : Nat) :
    (s.setThread t th).threads t' = if t' = t then th else s.threads t' :=
  Function.update_apply _ _ _ _

/-- What a goroutine holds, if the others hold what they did. -/
lemma System.held_setThread {P : UInt32 → Prop} (hth : ∀ id ∈ th.held, P id)
    (h : ∀ t, ∀ id ∈ (s.threads t).held, P id) (t' : Nat) :
    ∀ id ∈ ((s.setThread t th).threads t').held, P id := by
  rw [System.threads_setThread]
  split
  · exact hth
  · exact h t'

/-- A number that the goroutine has not got is still that of at most one other. -/
lemma System.pending_setThread {id : UInt32} {u : Nat} (hth : th.pending ≠ some id)
    (h : ∀ t', (s.threads t').pending = some id → t' = u) (t' : Nat)
    (ht' : ((s.setThread t th).threads t').pending = some id) : t' = u := by
  rw [System.threads_setThread] at ht'
  split at ht'
  · exact absurd ht' hth
  · exact h t' ht'

lemma System.Good.effect (h : s.Good) {l : Log D} (heffect : Effect s.log (s.threads t) l th) :
    ({ s with log := l }.setThread t th).Good := by
  cases heffect with
  | same hpending hheld =>
    refine ⟨h.readable, h.used, fun t' id hid => ?_, System.held_setThread hheld h.held⟩
    rw [System.threads_setThread] at hid
    split at hid
    · cases hpending.symm.trans hid
    · obtain ⟨hlt, hnew, hunique⟩ := h.pending t' id hid
      exact ⟨hlt, hnew, System.pending_setThread (by simp [hpending]) hunique⟩
  | alloc hnext hid hentries hpending hheld =>
    have hbound := Log.bound_alloc hnext hid
    have hnat := Log.bound_of_ne hnext
    refine ⟨?_, ?_, fun t' id hid' => ?_, ?_⟩
    · exact hentries ▸ h.readable
    · intro id hmem
      have := h.used id (hentries ▸ hmem)
      change id.toNat < l.bound
      omega
    · change id.toNat < l.bound ∧ id ∉ ids l.entries ∧ _
      rw [hentries, hbound]
      rw [System.threads_setThread] at hid'
      split at hid'
      next ht =>
        obtain rfl := Option.some.inj (hpending.symm.trans hid')
        refine ⟨by omega, fun hmem => ?_, fun u hu => ?_⟩
        · have := h.used _ hmem
          omega
        · rw [System.threads_setThread] at hu
          split at hu
          next hut => rw [hut, ht]
          next =>
            have := (h.pending u _ hu).1
            omega
      next =>
        obtain ⟨hlt, hnew, hunique⟩ := h.pending t' id hid'
        refine ⟨by omega, hnew, System.pending_setThread (fun heq => ?_) hunique⟩
        obtain rfl := Option.some.inj (hpending.symm.trans heq)
        omega
    · exact System.held_setThread (by simpa [System.setThread, hentries] using hheld)
        (by simpa [System.setThread, hentries] using h.held)
  | write e hid hrefs hpending hheld =>
    have hids : ids (s.log.entries ++ [e]) = ids s.log.entries ++ e.id?.toList := by
      rw [ids_append, ids_singleton]
    refine ⟨?_, ?_, fun t' id hid' => ?_, ?_⟩
    · exact h.readable.append (fun id he => (h.pending t id (hid ▸ he)).2.1) hrefs
    · intro id hmem
      change id ∈ ids (s.log.entries ++ [e]) at hmem
      rw [hids, List.mem_append, Option.mem_toList, hid] at hmem
      rcases hmem with hmem | hmem
      · exact h.used id hmem
      · exact (h.pending t id hmem).1
    · rw [System.threads_setThread] at hid'
      split at hid'
      · cases hpending.symm.trans hid'
      next ht =>
        obtain ⟨hlt, hnew, hunique⟩ := h.pending t' id hid'
        refine ⟨hlt, ?_, System.pending_setThread (by simp [hpending]) hunique⟩
        change id ∉ ids (s.log.entries ++ [e])
        rw [hids, List.mem_append, Option.mem_toList, hid]
        rintro (hmem | hmem)
        · exact hnew hmem
        · exact ht (hunique t hmem).symm
    · refine System.held_setThread hheld fun u id hmem => ?_
      change id ∈ ids (s.log.entries ++ [e])
      rw [hids]
      exact List.mem_append_left _ (h.held u id hmem)

end

lemma System.Good.next {s : System D} (h : s.Good) {e : Event D} (he : s.Keeps e) :
    (s.next e).Good := by
  cases e with
  | call t edge =>
    simp only [System.next]
    split
    · exact h.effect (.same (by simp) (by simp [Thread.held]))
    · exact h
  | advance t digest writes => exact h.effect (Thread.advance_effect he (h.held t) digest writes)

lemma System.good_initial : ({} : System D).Good where
  readable := ⟨List.nodup_nil, by simp⟩
  used := by simp [ids]
  pending := by simp [Thread.pending]
  held := by simp [Thread.held]

/-- The log can be read in one pass after every step of goroutines that only find numbers whose
entries have been written, as long as there are numbers left. -/
theorem log_readable {events : List (Event D)}
    (h : ∀ p ∈ Traces.steps System.next {} events, p.1.Keeps p.2) :
    ∀ s ∈ Traces.states System.next ({} : System D) events, Readable s.log.entries :=
  fun s hs => (Traces.forall_states (fun _ _ hgood hkeeps => hgood.next hkeeps)
    System.good_initial h s hs).readable

/-- An edge from one file to another, whose hash is empty. -/
def sampleEdge : Edge Unit := { details := (), inputs := [[97]], outputs := [[98]] }

/-- Some steps of a goroutine in which all files can be hashed and all writes succeed. -/
def advances (t n : Nat) : List (Event Unit) := .replicate n (.advance t (some ⟨[], 0⟩) true)

theorem log_readable_sampleEdge :
    (∀ p ∈ Traces.steps System.next {} (.call 0 sampleEdge :: advances 0 10), p.1.Keeps p.2) ∧
      ∀ s ∈ Traces.states System.next ({} : System Unit) (.call 0 sampleEdge :: advances 0 10),
        Readable s.log.entries :=
  have h : ∀ p ∈ Traces.steps System.next {} (.call 0 sampleEdge :: advances 0 10),
      p.1.Keeps p.2 := by decide
  ⟨h, log_readable h⟩

/-- A goroutine finds the number of a file whose entry another one has yet to write, or has failed
to write, and its input set refers to nothing before it. -/
theorem log_not_readable :
    ¬ Readable ((.call 0 sampleEdge :: advances 0 2 ++ .call 1 sampleEdge :: advances 1 4).foldl
        System.next {}).log.entries ∧
      ¬ Readable ((.call 0 sampleEdge :: advances 0 2 ++ .advance 0 none false ::
        .call 1 sampleEdge :: advances 1 4).foldl System.next {}).log.entries := by
  constructor <;>
  · intro h
    have := h.refs [] (.inputSet 2 [1]) [] (by decide) 1 (by decide)
    simp [ids] at this

end Reninja.CompactExecution
