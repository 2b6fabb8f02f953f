import Reninja.Util.ElideMiddle

/-!
# The line printer

`internal/line_printer`: status lines and the output of commands on one terminal. While a command
has the console, both are held back in buffers.
-/

namespace Reninja

open List

inductive LineType where
  | full | elide
  deriving DecidableEq

/-- `LinePrinter`, with everything it has written and the width of the terminal, zero if that is
not known. -/
structure LinePrinter where
  smartTerminal : Bool
  width : Nat := 0
  out : GoString := []
  haveBlankLine : Bool := true
  consoleLocked : Bool := false
  lineBuffer : GoString := []
  lineType : LineType := .full
  outputBuffer : GoString := []

namespace LinePrinter

variable (p : LinePrinter)

def newline : GoString := [10]

def write (data : GoString) : LinePrinter := { p with out := p.out ++ data }

def printOrBuffer (data : GoString) : LinePrinter :=
  if p.consoleLocked then { p with outputBuffer := p.outputBuffer ++ data } else p.write data

def print (toPrint : GoString) (lineType : LineType) : LinePrinter :=
  if p.consoleLocked then
    { p with lineBuffer := toPrint, lineType := lineType }
  else
    let p := if p.smartTerminal then p.write [13] else p
    if p.smartTerminal ∧ lineType = .elide then
      let toPrint := if 0 < p.width then ElideMiddle.elideMiddle toPrint p.width else toPrint
      { (p.write toPrint).write [27, 91, 75] with haveBlankLine := false }
    else
      p.write (toPrint ++ newline)

def printOnNewline (toPrint : GoString) : LinePrinter :=
  let p := if p.consoleLocked ∧ p.lineBuffer ≠ [] then
      { p with outputBuffer := p.outputBuffer ++ (p.lineBuffer ++ newline), lineBuffer := [] }
    else p
  let p := if p.haveBlankLine then p else p.printOrBuffer newline
  let p := if toPrint ≠ [] then p.printOrBuffer toPrint else p
  { p with haveBlankLine := toPrint = [] || toPrint.getLast? = some 10 }

def setConsoleLocked (locked : Bool) : LinePrinter :=
  if locked = p.consoleLocked then
    p
  else if locked then
    { p.printOnNewline [] with consoleLocked := true }
  else
    let p := { p with consoleLocked := false }
    let p := p.printOnNewline p.outputBuffer
    let p := if 0 < p.lineBuffer.length then p.print p.lineBuffer p.lineType else p
    { p with outputBuffer := [], lineBuffer := [] }

inductive Call where
  | print (toPrint : GoString) (lineType : LineType)
  | printOnNewline (toPrint : GoString)
  | setConsoleLocked (locked : Bool)

def next : Call → LinePrinter
  | .print toPrint lineType => p.print toPrint lineType
  | .printOnNewline toPrint => p.printOnNewline toPrint
  | .setConsoleLocked locked => p.setConsoleLocked locked

/-- A piece of the output. -/
inductive Piece where
  | newline
  | status (line : GoString)
  | text (toPrint : GoString)
  deriving DecidableEq

def Piece.bytes : Piece → GoString
  | .newline => LinePrinter.newline
  | .status line => line ++ LinePrinter.newline
  | .text toPrint => toPrint

def Piece.text? : Piece → Option GoString
  | .text toPrint => some toPrint
  | _ => none

def Call.asks : Call → List Piece
  | .print toPrint _ => [.status toPrint]
  | .printOnNewline toPrint => if toPrint = [] then [] else [.text toPrint]
  | .setConsoleLocked _ => []

/-! ### What is printed -/

/-- All texts that were asked for, in order, with newlines and some of the status lines that were
asked for between them. -/
structure Renders (pieces asked : List Piece) : Prop where
  sublist : (pieces.filter (· ≠ .newline)).Sublist asked
  texts : pieces.filterMap Piece.text? = asked.filterMap Piece.text?

namespace Renders

variable {pieces rest asked more : List Piece} {line : GoString}

lemma insert_newline (h : Renders (pieces ++ rest) asked) :
    Renders (pieces ++ .newline :: rest) asked where
  sublist := by simpa using h.sublist
  texts := by
    rw [filterMap_append, filterMap_cons_none rfl, ← filterMap_append, h.texts]

lemma append (h : Renders pieces asked) (hmore : Piece.newline ∉ more) :
    Renders (pieces ++ more) (asked ++ more) where
  sublist := by
    have hfilter : more.filter (· ≠ .newline) = more := by
      refine filter_eq_self.mpr fun x hx => ?_
      simpa using ne_of_mem_of_not_mem hx hmore
    rw [filter_append, hfilter]
    exact h.sublist.append (.refl more)
  texts := by rw [filterMap_append, filterMap_append, h.texts]

lemma drop_status (h : Renders (pieces ++ [.status line]) asked) : Renders pieces asked where
  sublist := by
    refine List.Sublist.trans ?_ h.sublist
    rw [filter_append]
    exact sublist_append_left ..
  texts := by
    rw [← h.texts, filterMap_append]
    exact (append_nil _).symm

end Renders

def bytes (pieces : List Piece) : GoString := pieces.flatMap Piece.bytes

@[simp] lemma bytes_nil : bytes [] = [] := rfl

@[simp] lemma bytes_append (l l' : List Piece) : bytes (l ++ l') = bytes l ++ bytes l' :=
  flatMap_append

def blank : List Piece := if p.haveBlankLine then [] else [.newline]

def pending : List Piece := if p.lineBuffer = [] then [] else [.status p.lineBuffer]

lemma bytes_asks (toPrint : GoString) : bytes (Call.printOnNewline toPrint).asks = toPrint := by
  by_cases h : toPrint = []
  · simp [Call.asks, h]
  · simp [Call.asks, h, bytes, Piece.bytes]

variable {p}

lemma printOnNewline_unlocked (hunlocked : p.consoleLocked = false) (toPrint : GoString) :
    p.printOnNewline toPrint = { p with
      out := p.out ++ (bytes p.blank ++ toPrint)
      haveBlankLine := toPrint = [] || toPrint.getLast? = some 10 } := by
  cases hblank : p.haveBlankLine <;> by_cases htext : toPrint = [] <;>
    simp [printOnNewline, printOrBuffer, write, blank, bytes, Piece.bytes, hunlocked, hblank, htext]

lemma printOnNewline_locked (hlocked : p.consoleLocked = true) (toPrint : GoString) :
    p.printOnNewline toPrint = { p with
      outputBuffer := p.outputBuffer ++ (bytes p.pending ++ (bytes p.blank ++ toPrint))
      lineBuffer := []
      haveBlankLine := toPrint = [] || toPrint.getLast? = some 10 } := by
  by_cases hline : p.lineBuffer = [] <;> cases hblank : p.haveBlankLine <;>
    by_cases htext : toPrint = [] <;>
    simp [printOnNewline, printOrBuffer, pending, blank, bytes, Piece.bytes, hlocked, hline, hblank,
      htext]

lemma setConsoleLocked_false (hlocked : p.consoleLocked = true) (hdumb : p.smartTerminal = false) :
    p.setConsoleLocked false = { p with
      consoleLocked := false
      out := p.out ++ (bytes p.blank ++ (p.outputBuffer ++ bytes p.pending))
      outputBuffer := []
      lineBuffer := []
      haveBlankLine := p.outputBuffer = [] || p.outputBuffer.getLast? = some 10 } := by
  rw [setConsoleLocked, hlocked, if_neg (by simp), if_neg (by simp)]
  simp only [printOnNewline_unlocked (p := { p with consoleLocked := false }) rfl]
  by_cases hline : p.lineBuffer = []
  · simp [hline, pending, blank]
  · simp [hline, pending, blank, print, hdumb, write, bytes, Piece.bytes, length_pos_iff]

/-- What a printer has written and holds back is what it was asked to print. -/
structure Accounts (p : LinePrinter) (written buffered asked : List Piece) : Prop where
  dumb : p.smartTerminal = false
  out : p.out = bytes written
  outputBuffer : p.outputBuffer = bytes buffered
  renders : Renders (written ++ buffered ++ p.pending) asked
  unlocked : p.consoleLocked = false → buffered = [] ∧ p.lineBuffer = []

namespace Accounts

variable {written buffered asked : List Piece}

lemma render_text (h : Renders written asked) (p : LinePrinter) (toPrint : GoString) :
    Renders (written ++ p.blank ++ (Call.printOnNewline toPrint).asks)
      (asked ++ (Call.printOnNewline toPrint).asks) := by
  have hblank : Renders (written ++ p.blank) asked := by
    cases hb : p.haveBlankLine
    · rw [← append_nil written] at h
      simpa [blank, hb] using h.insert_newline
    · simpa [blank, hb] using h
  refine hblank.append ?_
  by_cases ht : toPrint = [] <;> simp [Call.asks, ht]

lemma printOnNewline (h : p.Accounts written buffered asked) (toPrint : GoString) :
    ∃ written' buffered', (p.printOnNewline toPrint).Accounts written' buffered'
      (asked ++ (Call.printOnNewline toPrint).asks) := by
  cases hlocked : p.consoleLocked
  · obtain ⟨rfl, hline⟩ := h.unlocked hlocked
    have hpending : p.pending = [] := by simp [pending, hline]
    have hrenders := h.renders
    rw [hpending, append_nil, append_nil] at hrenders
    rw [printOnNewline_unlocked hlocked]
    refine ⟨written ++ p.blank ++ (Call.printOnNewline toPrint).asks, [], h.dumb, ?_,
      h.outputBuffer, ?_, fun _ => ⟨rfl, hline⟩⟩
    · simp [h.out, bytes_asks]
    · simpa [pending, hline] using render_text hrenders p toPrint
  · rw [printOnNewline_locked hlocked]
    refine ⟨written, buffered ++ p.pending ++ p.blank ++ (Call.printOnNewline toPrint).asks, h.dumb,
      h.out, ?_, ?_, fun hunlocked => by simp [hlocked] at hunlocked⟩
    · simp [h.outputBuffer, bytes_asks]
    · simpa [pending] using render_text h.renders p toPrint

lemma print (h : p.Accounts written buffered asked) (toPrint : GoString) (lineType : LineType) :
    ∃ written' buffered', (p.print toPrint lineType).Accounts written' buffered'
      (asked ++ [.status toPrint]) := by
  have hrenders : Renders (written ++ buffered) asked := by
    have hall := h.renders
    by_cases hline : p.lineBuffer = []
    · simpa [pending, hline] using hall
    · rw [pending, if_neg hline] at hall
      exact hall.drop_status
  have hasked : Renders (written ++ buffered ++ [.status toPrint]) (asked ++ [.status toPrint]) :=
    hrenders.append (by simp)
  cases hlocked : p.consoleLocked
  · obtain ⟨rfl, hline⟩ := h.unlocked hlocked
    refine ⟨written ++ [.status toPrint], [], ?_⟩
    simp only [LinePrinter.print, hlocked, h.dumb, Bool.false_eq_true, if_false, false_and]
    refine ⟨h.dumb, ?_, h.outputBuffer, ?_, fun _ => ⟨rfl, hline⟩⟩
    · simp [write, h.out, bytes, Piece.bytes]
    · simpa [pending, write, hline] using hasked
  · refine ⟨written, buffered, ?_⟩
    simp only [LinePrinter.print, hlocked, if_true]
    refine ⟨h.dumb, h.out, h.outputBuffer, ?_, fun hunlocked => by simp at hunlocked⟩
    by_cases hline : toPrint = []
    · simpa [pending, hline] using hasked.drop_status
    · simpa [pending, hline] using hasked

lemma setConsoleLocked (h : p.Accounts written buffered asked) (locked : Bool) :
    ∃ written' buffered', (p.setConsoleLocked locked).Accounts written' buffered' asked := by
  by_cases hsame : locked = p.consoleLocked
  · rw [LinePrinter.setConsoleLocked, if_pos hsame]
    exact ⟨written, buffered, h⟩
  · cases locked
    · have hlocked : p.consoleLocked = true := by simpa using hsame
      rw [setConsoleLocked_false hlocked h.dumb]
      refine ⟨written ++ p.blank ++ (buffered ++ p.pending), [], h.dumb, ?_, rfl, ?_,
        fun _ => ⟨rfl, rfl⟩⟩
      · simp [h.out, h.outputBuffer]
      · have hrenders := h.renders
        rw [append_assoc] at hrenders
        cases hblank : p.haveBlankLine
        · simpa [blank, hblank, pending] using hrenders.insert_newline
        · simpa [blank, hblank, pending] using hrenders
    · rw [LinePrinter.setConsoleLocked, if_neg hsame, if_pos rfl]
      obtain ⟨written', buffered', h'⟩ := h.printOnNewline []
      exact ⟨written', buffered', h'.dumb, h'.out, h'.outputBuffer,
        by simpa [Call.asks, pending] using h'.renders, fun hunlocked => by simp at hunlocked⟩

lemma next (h : p.Accounts written buffered asked) (c : Call) :
    ∃ written' buffered', (p.next c).Accounts written' buffered' (asked ++ c.asks) := by
  cases c with
  | print toPrint lineType => exact h.print toPrint lineType
  | printOnNewline toPrint => exact h.printOnNewline toPrint
  | setConsoleLocked locked =>
    simpa [Call.asks, LinePrinter.next] using h.setConsoleLocked locked

lemma run (h : p.Accounts written buffered asked) (calls : List Call) :
    ∃ written' buffered', (calls.foldl LinePrinter.next p).Accounts written' buffered'
      (asked ++ calls.flatMap Call.asks) := by
  induction calls generalizing p written buffered asked with
  | nil => exact ⟨written, buffered, by simpa using h⟩
  | cons c calls ih =>
    obtain ⟨written₁, buffered₁, h₁⟩ := h.next c
    simpa using ih h₁

end Accounts

lemma status_mem_asks {calls : List Call} {line : GoString}
    (h : .status line ∈ calls.flatMap Call.asks) : ∃ lineType, .print line lineType ∈ calls := by
  obtain ⟨c, hc, hline⟩ := mem_flatMap.mp h
  cases c with
  | print toPrint lineType =>
    obtain rfl : line = toPrint := by simpa [Call.asks] using hline
    exact ⟨lineType, hc⟩
  | printOnNewline toPrint =>
    by_cases ht : toPrint = [] <;> simp [Call.asks, ht] at hline
  | setConsoleLocked locked => simp [Call.asks] at hline

def texts (calls : List Call) : List GoString := calls.filterMap fun
  | .printOnNewline toPrint => if toPrint = [] then none else some toPrint
  | _ => none

lemma filterMap_asks (calls : List Call) :
    (calls.flatMap Call.asks).filterMap Piece.text? = texts calls := by
  rw [filterMap_flatMap, texts, filterMap_eq_flatMap_toList]
  congr 1
  funext c
  cases c with
  | print => rfl
  | printOnNewline toPrint => by_cases ht : toPrint = [] <;> simp [Call.asks, ht, Piece.text?]
  | setConsoleLocked => rfl

/-- On a dumb terminal no output is lost: once the console is free, the output is made of the texts,
each once and in order, of newlines and of status lines. -/
theorem out_renders (calls : List Call) (p : LinePrinter)
    (hp : p = calls.foldl LinePrinter.next { smartTerminal := false })
    (hunlocked : p.consoleLocked = false) :
    (∃ pieces, p.out = bytes pieces ∧ pieces.filterMap Piece.text? = texts calls ∧
        ∀ line, .status line ∈ pieces → ∃ lineType, .print line lineType ∈ calls) ∧
      p.outputBuffer = [] ∧ p.lineBuffer = [] := by
  have hnew : Accounts { smartTerminal := false } [] [] [] :=
    ⟨rfl, rfl, rfl, ⟨.refl [], rfl⟩, fun _ => ⟨rfl, rfl⟩⟩
  obtain ⟨written, buffered, h⟩ := hnew.run calls
  rw [← hp, nil_append] at h
  obtain ⟨rfl, hline⟩ := h.unlocked hunlocked
  have hrenders := h.renders
  simp only [pending, hline, if_true, append_nil] at hrenders
  refine ⟨⟨written, h.out, hrenders.texts.trans (filterMap_asks calls), fun line hmem => ?_⟩,
    h.outputBuffer, hline⟩
  exact status_mem_asks (hrenders.sublist.subset (mem_filter.mpr ⟨hmem, by simp⟩))

/-- A command takes the console and gives it back. -/
theorem out_renders_console :
    let calls : List Call := [.printOnNewline "a", .setConsoleLocked true, .print "[1/2]" .elide,
      .printOnNewline "b", .setConsoleLocked false]
    let p := calls.foldl LinePrinter.next { smartTerminal := false }
    (∃ pieces, p.out = bytes pieces ∧ pieces.filterMap Piece.text? = texts calls ∧
        ∀ line, .status line ∈ pieces → ∃ lineType, .print line lineType ∈ calls) ∧
      p.outputBuffer = [] ∧ p.lineBuffer = [] := by
  intro calls p
  exact out_renders calls p rfl (by decide +kernel)

end LinePrinter

end Reninja
