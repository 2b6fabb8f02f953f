import Reninja.Graph.Basic
import Reninja.Library.Traces

/-!
# Progress counters

The counters of `StatusPrinter` in `internal/status`, and the calls with which a sequence of builds
updates them.
-/

namespace Reninja.Status

inductive VerbosityLevel where
  | quiet | noStatusUpdate | normal | verbose
  deriving DecidableEq

/-- The counters of a `StatusPrinter`, and the level it prints at. -/
structure StatusPrinter where
  verbosity : VerbosityLevel
  startedEdges : Int := 0
  finishedEdges : Int := 0
  totalEdges : Int := 0
  runningEdges : Int := 0
  cpuTimeMillis : Int := 0
  etaPredictableEdgesTotal : Int := 0
  etaPredictableCpuTimeTotalMillis : Int := 0
  etaPredictableEdgesRemaining : Int := 0
  etaPredictableCpuTimeRemainingMillis : Int := 0
  etaUnpredictableEdgesRemaining : Int := 0
  deriving DecidableEq

namespace StatusPrinter

variable (p : StatusPrinter)

def edgeAddedToPlan (prev : Int) : StatusPrinter :=
  let p := { p with totalEdges := p.totalEdges + 1 }
  if prev ≠ -1 then
    { p with
      etaPredictableEdgesTotal := p.etaPredictableEdgesTotal + 1
      etaPredictableEdgesRemaining := p.etaPredictableEdgesRemaining + 1
      etaPredictableCpuTimeTotalMillis := p.etaPredictableCpuTimeTotalMillis + prev
      etaPredictableCpuTimeRemainingMillis := p.etaPredictableCpuTimeRemainingMillis + prev }
  else
    { p with etaUnpredictableEdgesRemaining := p.etaUnpredictableEdgesRemaining + 1 }

def edgeRemovedFromPlan (prev : Int) : StatusPrinter :=
  let p := { p with totalEdges := p.totalEdges - 1 }
  if prev ≠ -1 then
    { p with
      etaPredictableEdgesTotal := p.etaPredictableEdgesTotal - 1
      etaPredictableEdgesRemaining := p.etaPredictableEdgesRemaining - 1
      etaPredictableCpuTimeTotalMillis := p.etaPredictableCpuTimeTotalMillis - prev
      etaPredictableCpuTimeRemainingMillis := p.etaPredictableCpuTimeRemainingMillis - prev }
  else
    { p with etaUnpredictableEdgesRemaining := p.etaUnpredictableEdgesRemaining - 1 }

def buildEdgeStarted : StatusPrinter :=
  { p with startedEdges := p.startedEdges + 1, runningEdges := p.runningEdges + 1 }

def buildEdgeFinished (prev elapsed : Int) : StatusPrinter :=
  let p := { p with
    finishedEdges := p.finishedEdges + 1
    cpuTimeMillis := p.cpuTimeMillis + elapsed }
  let p :=
    if prev ≠ -1 then
      { p with
        etaPredictableEdgesRemaining := p.etaPredictableEdgesRemaining - 1
        etaPredictableCpuTimeRemainingMillis := p.etaPredictableCpuTimeRemainingMillis - prev }
    else
      { p with etaUnpredictableEdgesRemaining := p.etaUnpredictableEdgesRemaining - 1 }
  if p.verbosity = .quiet then p else { p with runningEdges := p.runningEdges - 1 }

def buildStarted : StatusPrinter :=
  { p with startedEdges := 0, finishedEdges := 0, runningEdges := 0 }

end StatusPrinter

/-! ### Sequences of builds -/

/-- What a builder tells the printer. `BuildFinished` changes no counter. -/
inductive Call where
  | newBuilder
  | edgeAddedToPlan (prev : Int)
  | edgeRemovedFromPlan (prev : Int)
  | buildStarted
  | buildEdgeStarted (e : EdgeId)
  | buildEdgeFinished (e : EdgeId) (prev elapsed : Int)
  | buildFinished
  deriving DecidableEq

inductive Phase where
  | idle | planning | building
  deriving DecidableEq

/-- A printer and the builder that uses it: the edges of its build that were started and are not
finished, and the edges that finished since a build was started. -/
structure Session where
  printer : StatusPrinter
  phase : Phase := .idle
  running : List EdgeId := []
  finished : List EdgeId := []

namespace Session

variable (s : Session)

def initial (verbosity : VerbosityLevel) : Session := { printer := { verbosity } }

/-- The calls that `Builder` makes: it plans before it builds, it starts edges that are not running
and it finishes edges that are. -/
def Allowed : Call → Prop
  | .newBuilder => s.phase ≠ .building
  | .edgeAddedToPlan _ => s.phase ≠ .idle
  | .edgeRemovedFromPlan _ => s.phase ≠ .idle
  | .buildStarted => s.phase = .planning
  | .buildEdgeStarted e => s.phase = .building ∧ e ∉ s.running
  | .buildEdgeFinished e _ _ => s.phase = .building ∧ e ∈ s.running
  | .buildFinished => s.phase = .building

def next : Call → Session
  | .newBuilder => { s with phase := .planning, running := [] }
  | .edgeAddedToPlan prev => { s with printer := s.printer.edgeAddedToPlan prev }
  | .edgeRemovedFromPlan prev => { s with printer := s.printer.edgeRemovedFromPlan prev }
  | .buildStarted =>
    { s with printer := s.printer.buildStarted, phase := .building, finished := [] }
  | .buildEdgeStarted e =>
    { s with printer := s.printer.buildEdgeStarted, running := e :: s.running }
  | .buildEdgeFinished e prev elapsed =>
    { s with
      printer := s.printer.buildEdgeFinished prev elapsed
      running := s.running.erase e
      finished := e :: s.finished }
  | .buildFinished => { s with phase := .idle }

abbrev states (calls : List Call) : List Session := Traces.states next s calls

abbrev steps (calls : List Call) : List (Session × Call) := Traces.steps next s calls

def Exact : Prop :=
  s.printer.runningEdges = s.running.length ∧
    s.printer.etaPredictableEdgesRemaining + s.printer.etaUnpredictableEdgesRemaining =
      s.printer.totalEdges - s.printer.finishedEdges

/-- The calls that keep the counters exact: a build begins when no edge of the last one is running
and is started when no edge has finished yet, and edges only finish if something is printed. -/
def Keeps : Call → Prop
  | .newBuilder => s.running = []
  | .buildStarted => s.finished = []
  | .buildEdgeFinished _ _ _ => s.printer.verbosity ≠ .quiet
  | _ => True

instance (c : Call) : Decidable (s.Allowed c) :=
  match c with
  | .newBuilder => inferInstanceAs (Decidable (_ ≠ _))
  | .edgeAddedToPlan _ => inferInstanceAs (Decidable (_ ≠ _))
  | .edgeRemovedFromPlan _ => inferInstanceAs (Decidable (_ ≠ _))
  | .buildStarted => inferInstanceAs (Decidable (_ = _))
  | .buildEdgeStarted _ => inferInstanceAs (Decidable (_ ∧ _))
  | .buildEdgeFinished _ _ _ => inferInstanceAs (Decidable (_ ∧ _))
  | .buildFinished => inferInstanceAs (Decidable (_ = _))

instance (c : Call) : Decidable (s.Keeps c) :=
  match c with
  | .newBuilder => inferInstanceAs (Decidable (_ = _))
  | .buildStarted => inferInstanceAs (Decidable (_ = _))
  | .buildEdgeFinished _ _ _ => inferInstanceAs (Decidable (_ ≠ _))
  | .edgeAddedToPlan _ | .edgeRemovedFromPlan _ | .buildEdgeStarted _ | .buildFinished =>
    .isTrue trivial

instance : Decidable s.Exact := inferInstanceAs (Decidable (_ ∧ _))

variable {s}

/-- What the calls keep in any case: the printer counts the edges that finished, and no edge runs
before its build is started. -/
structure Good (s : Session) : Prop where
  finished : s.printer.finishedEdges = s.finished.length
  planning : s.phase = .planning → s.running = []

lemma Good.next (h : s.Good) {c : Call} (hc : s.Allowed c) : (s.next c).Good := by
  obtain ⟨hfinished, hplanning⟩ := h
  cases c with
  | newBuilder => exact ⟨hfinished, fun _ => rfl⟩
  | edgeAddedToPlan prev =>
    refine ⟨?_, hplanning⟩
    simp only [Session.next, StatusPrinter.edgeAddedToPlan]
    split <;> exact hfinished
  | edgeRemovedFromPlan prev =>
    refine ⟨?_, hplanning⟩
    simp only [Session.next, StatusPrinter.edgeRemovedFromPlan]
    split <;> exact hfinished
  | buildStarted => exact ⟨rfl, fun h => by cases h⟩
  | buildEdgeStarted e => exact ⟨hfinished, fun h => by cases h.symm.trans hc.1⟩
  | buildEdgeFinished e prev elapsed =>
    refine ⟨?_, fun h => by cases h.symm.trans hc.1⟩
    simp only [Session.next, StatusPrinter.buildEdgeFinished]
    split <;> split <;> simp [hfinished]
  | buildFinished => exact ⟨hfinished, fun h => by cases h⟩

lemma Good.exact_next_iff (h : s.Good) {c : Call} (hc : s.Allowed c) (hexact : s.Exact) :
    (s.next c).Exact ↔ s.Keeps c := by
  obtain ⟨hrunning, heta⟩ := hexact
  cases c with
  | newBuilder =>
    refine ⟨fun hnext => ?_, fun hkeeps => ⟨?_, heta⟩⟩
    · exact List.length_eq_zero_iff.mp (Int.ofNat.inj (hrunning.symm.trans hnext.1))
    · exact hrunning.trans (congrArg _ (congrArg List.length hkeeps))
  | edgeAddedToPlan prev =>
    refine iff_of_true ⟨?_, ?_⟩ trivial
    all_goals
      simp only [Session.next, StatusPrinter.edgeAddedToPlan]
      split <;> dsimp only <;> omega
  | edgeRemovedFromPlan prev =>
    refine iff_of_true ⟨?_, ?_⟩ trivial
    all_goals
      simp only [Session.next, StatusPrinter.edgeRemovedFromPlan]
      split <;> dsimp only <;> omega
  | buildStarted =>
    have hnone := congrArg List.length (h.planning hc)
    have hfinished := h.finished
    simp only [Session.Exact, Session.next, StatusPrinter.buildStarted, Session.Keeps,
      ← List.length_eq_zero_iff]
    rw [List.length_nil] at hnone
    omega
  | buildEdgeStarted e =>
    refine iff_of_true ⟨?_, heta⟩ trivial
    simp only [Session.next, StatusPrinter.buildEdgeStarted, List.length_cons]
    omega
  | buildEdgeFinished e prev elapsed =>
    have hlength := List.length_erase_of_mem hc.2
    have hpos := List.length_pos_of_mem hc.2
    simp only [Session.Exact, Session.next, StatusPrinter.buildEdgeFinished, Session.Keeps]
    split <;> split <;> simp_all <;> omega
  | buildFinished => exact iff_of_true ⟨hrunning, heta⟩ trivial

lemma Good.exact_states_iff (h : s.Good) (hexact : s.Exact) {calls : List Call}
    (hcalls : ∀ p ∈ s.steps calls, p.1.Allowed p.2) :
    (∀ x ∈ s.states calls, x.Exact) ↔ ∀ p ∈ s.steps calls, p.1.Keeps p.2 := by
  induction calls generalizing s with
  | nil => simp [Traces.states, Traces.steps, hexact]
  | cons c calls ih =>
    rw [steps, Traces.steps_cons, List.forall_mem_cons] at hcalls
    obtain ⟨hc, hcalls⟩ := hcalls
    rw [states, steps, Traces.states_cons, Traces.steps_cons, List.forall_mem_cons,
      List.forall_mem_cons]
    have hstep := h.exact_next_iff hc hexact
    constructor
    · rintro ⟨-, hall⟩
      have hnext := hall _ (Traces.mem_states _ _)
      exact ⟨hstep.mp hnext, (ih (h.next hc) hnext hcalls).mp hall⟩
    · rintro ⟨hkeeps, hall⟩
      exact ⟨hexact, (ih (h.next hc) (hstep.mpr hkeeps) hcalls).mpr hall⟩

end Session

open Reninja.Status.Session

/-- The counters of a printer are exact in every state of every sequence of builds if and only if
no edge finishes while the printer is quiet, no build is started after an edge has finished, and
none begins while an edge of the last one is running. -/
theorem counters_exact_iff (verbosity : VerbosityLevel) {calls : List Call}
    (hcalls : ∀ p ∈ (initial verbosity).steps calls, p.1.Allowed p.2) :
    (∀ s ∈ (initial verbosity).states calls, s.Exact) ↔
      ∀ p ∈ (initial verbosity).steps calls, p.1.Keeps p.2 :=
  Good.exact_states_iff ⟨rfl, fun _ => rfl⟩ ⟨rfl, rfl⟩ hcalls

def oneEdge : List Call :=
  [.newBuilder, .edgeAddedToPlan (-1), .buildStarted, .buildEdgeStarted 0,
    .buildEdgeFinished 0 (-1) 3, .buildFinished]

theorem counters_exact_iff_oneEdge :
    (∀ p ∈ (initial .normal).steps oneEdge, p.1.Allowed p.2) ∧
      ∀ s ∈ (initial .normal).states oneEdge, s.Exact :=
  have hcalls : ∀ p ∈ (initial .normal).steps oneEdge, p.1.Allowed p.2 := by decide
  ⟨hcalls, (counters_exact_iff .normal hcalls).mpr (by decide)⟩

/-- A quiet printer still counts an edge as running when it has finished. Another one counts the
edges of the first build in the total when the second build is started, but not as remaining. -/
theorem counters_drift :
    ((∀ p ∈ (initial .quiet).steps oneEdge, p.1.Allowed p.2) ∧
      ¬ ∀ s ∈ (initial .quiet).states oneEdge, s.Exact) ∧
    ((∀ p ∈ (initial .normal).steps (oneEdge ++ oneEdge), p.1.Allowed p.2) ∧
      ¬ ∀ s ∈ (initial .normal).states (oneEdge ++ oneEdge), s.Exact) := by
  decide

end Reninja.Status
