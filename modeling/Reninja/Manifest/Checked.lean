import Reninja.Manifest.Lexer
import Reninja.Manifest.Lookup

/-!
# Indices and loops

The functions of the lexer that read a token, a name or a value, and the lookup of variables,
with what can go wrong in them: every index and slice is checked as it is at run time, and a loop
that does not come to its end runs out of fuel. In the messages of errors nothing of this happens.
-/

namespace Reninja

open List

namespace Checked

section Slices

variable {α : Type} {s : List α}

def slice (s : List α) (lo hi : Int) : Except Failure (List α) :=
  if 0 ≤ lo ∧ lo ≤ hi ∧ hi ≤ s.length then .ok ((s.take hi.toNat).drop lo.toNat)
  else .error (.panic "slice bounds out of range")

def index (s : List α) (i : Int) : Except Failure α :=
  match s[i.toNat]? with
  | some a => if 0 ≤ i then .ok a else .error (.panic "index out of range")
  | none   => .error (.panic "index out of range")

lemma slice_eq {lo hi : Nat} (h : lo ≤ hi) (hs : hi ≤ s.length) :
    slice s lo hi = .ok ((s.take hi).drop lo) := by
  unfold slice
  rw [if_pos ⟨Int.natCast_nonneg _, Int.ofNat_le.mpr h, Int.ofNat_le.mpr hs⟩]
  rfl

lemma index_eq {i : Nat} {a : α} (h : s[i]? = some a) : index s i = .ok a := by
  unfold index
  rw [Int.toNat_natCast, h]
  exact if_pos (Int.natCast_nonneg i)

end Slices

/-! ### Messages -/

variable (l : Lexer)

def describeLastError : Except Failure GoString := do
  if l.lastToken < l.input.length then
    let c ← index l.input l.lastToken
    pure (if c = 9 then "tabs are not allowed, use spaces" else "lexing error")
  else
    pure "lexing error"

/-- The loop for the line: its number and where it starts. -/
def lineLoop : Nat → Nat → Nat × Nat → Except Failure (Nat × Nat)
  | 0, _, _ => .error .outOfFuel
  | fuel + 1, i, (line, lineStart) =>
    if (i : Int) < l.lastToken ∧ i < l.input.length then do
      let c ← index l.input i
      lineLoop fuel (i + 1) (if c = 10 then (line + 1, i + 1) else (line, lineStart))
    else
      .ok (line, lineStart)

def quoteLoop : Nat → Nat → Except Failure (Nat × Bool)
  | 0, _ => .error .outOfFuel
  | fuel + 1, length =>
    if length < 72 then
      if l.input.length ≤ length then .ok (length, false)
      else do
        let c ← index l.input length
        if c = 10 then .ok (length, false) else quoteLoop fuel (length + 1)
    else
      .ok (length, true)

def error (message : GoString) : Except Failure GoString := do
  let (line, lineStart) ← lineLoop l (l.input.length + 1) 0 (1, 0)
  let col := l.column lineStart
  let head := l.filename ++ (":" : GoString) ++
    ((Nat.toDigits 10 line).map fun c => UInt8.ofNat c.toNat) ++ (": " : GoString) ++ message ++
    [10]
  if 0 < col ∧ col < 72 then
    let (length, truncated) ← quoteLoop l 73 lineStart
    let quoted ← slice l.input lineStart length
    pure (head ++ quoted ++ (if truncated then ("..." : GoString) else []) ++ [10] ++
      replicate col.toNat 32 ++ ("^ near here" : GoString))
  else
    pure head

variable {l}

def lastLine (s : GoString) : Nat := s.length - (s.reverse.takeWhile (· ≠ 10)).length

lemma lastLine_concat (s : GoString) (c : UInt8) :
    lastLine (s ++ [c]) = if c = 10 then s.length + 1 else lastLine s := by
  unfold lastLine
  rw [reverse_append, reverse_singleton, singleton_append, takeWhile_cons,
    length_append, length_singleton]
  split_ifs with hc hc'
  · simp_all
  · have hle := (takeWhile_sublist (· ≠ 10) (l := s.reverse)).length_le
    rw [length_reverse] at hle
    rw [length_cons]
    omega
  · rfl
  · simp_all

lemma lineLoop_eq {k i : Nat} (hfuel : l.input.length < k + i)
    (hi : i ≤ (l.input.take l.lastToken.toNat).length) :
    lineLoop l k i ((l.input.take i).count 10 + 1, lastLine (l.input.take i)) =
      .ok ((l.input.take l.lastToken.toNat).count 10 + 1,
        lastLine (l.input.take l.lastToken.toNat)) := by
  rw [length_take] at hi
  induction k generalizing i with
  | zero => omega
  | succ k ih =>
    unfold lineLoop
    split
    next hlt =>
      rw [index_eq (getElem?_eq_getElem hlt.2)]
      have hnext := ih (i := i + 1) (by omega) (by omega)
      rw [take_add_one, getElem?_eq_getElem hlt.2, Option.toList_some, count_append,
        lastLine_concat, length_take, Nat.min_eq_left (Nat.le_of_lt hlt.2)] at hnext
      simp only [bind, Except.bind]
      rw [← hnext]
      congr 1
      by_cases hc : l.input[i] = 10
      · simp [hc]
      · simp [hc]
    next hend =>
      have hend' : l.input.take l.lastToken.toNat = l.input.take i := by
        by_cases hlen : i < l.input.length
        · have : l.lastToken.toNat = i := by omega
          rw [this]
        · rw [take_of_length_le (by omega), take_of_length_le (by omega)]
      rw [hend']

lemma quoteLoop_eq {k n i : Nat} (hfuel : 72 ≤ n + i) (hn : n < k)
    (hi : i ≤ l.input.length) :
    quoteLoop l k i = .ok (Lexer.quoteEnd l.input n i) ∧
      i ≤ (Lexer.quoteEnd l.input n i).1 ∧ (Lexer.quoteEnd l.input n i).1 ≤ l.input.length := by
  induction n generalizing k i with
  | zero =>
    obtain ⟨k, rfl⟩ : ∃ j, k = j + 1 := ⟨k - 1, by omega⟩
    rw [quoteLoop, if_neg (by omega), Lexer.quoteEnd]
    exact ⟨rfl, Nat.le_refl _, hi⟩
  | succ n ih =>
    obtain ⟨k, rfl⟩ : ∃ j, k = j + 1 := ⟨k - 1, by omega⟩
    rw [quoteLoop, Lexer.quoteEnd]
    by_cases h72 : i < 72
    · rw [if_pos h72, if_pos h72]
      by_cases hlen : l.input.length ≤ i
      · rw [if_pos hlen, getElem?_eq_none hlen]
        exact ⟨rfl, Nat.le_refl _, hi⟩
      · have hlt : i < l.input.length := Nat.not_le.mp hlen
        rw [if_neg hlen, index_eq (getElem?_eq_getElem hlt), getElem?_eq_getElem hlt]
        simp only [bind, Except.bind]
        by_cases hc : l.input[i] = 10
        · rw [if_pos hc, if_pos hc]
          exact ⟨rfl, Nat.le_refl _, hi⟩
        · rw [if_neg hc, if_neg hc]
          obtain ⟨heq, hle, hle'⟩ := ih (k := k) (i := i + 1) (by omega) (by omega) hlt
          exact ⟨heq, by omega, hle'⟩
    · rw [if_neg h72, if_neg h72]
      exact ⟨rfl, Nat.le_refl _, hi⟩

lemma lastLine_le (s : GoString) : lastLine s ≤ s.length := Nat.sub_le _ _

theorem error_eq (l : Lexer) (message : GoString) :
    error l message = .ok (l.error message) := by
  have hline := lineLoop_eq (l := l) (k := l.input.length + 1) (i := 0) (by omega)
    (Nat.zero_le _)
  have hstart : lastLine (l.input.take l.lastToken.toNat) ≤ l.input.length :=
    Nat.le_trans (lastLine_le _) (length_take_le' _ _)
  obtain ⟨hquote, hle, hle'⟩ := quoteLoop_eq (l := l) (k := 73) (n := 72) (by omega) (by omega)
    hstart
  unfold error Lexer.error
  rw [take_zero, count_nil] at hline
  rw [show lastLine [] = 0 from rfl] at hline
  have hlineOf : l.lineOf = ((Nat.toDigits 10 ((l.input.take l.lastToken.toNat).count 10 + 1)).map
      fun c => UInt8.ofNat c.toNat, lastLine (l.input.take l.lastToken.toNat)) := rfl
  simp only [hline, hlineOf, bind, Except.bind]
  split
  · rw [hquote]
    simp only
    rw [slice_eq hle hle']
    rfl
  · rfl

/-- The loop of `ReadToken`: the length of the comments in front of a token. -/
def comments : Nat → GoString → Except Failure Nat
  | 0, _ => .error .outOfFuel
  | fuel + 1, s =>
    match Lexer.matchToken s with
    | (none, n) => do
      let rest ← comments fuel (s.drop n)
      pure (n + rest)
    | (some _, _) => .ok 0

def readToken (l : Lexer) : Except Failure (Lexer.Token × Lexer) := do
  let skipped ← comments (l.rest.length + 1) l.rest
  let start := l.ofs + skipped
  let (token, n) := Lexer.matchToken (l.input.drop start)
  let token := token.getD .error
  let l := { l with lastToken := start, ofs := start + n }
  pure (token, if token ≠ .newline ∧ token ≠ .eof then l.eatWhitespace else l)

/-- `UnreadToken`: no byte can be read in front of the input. -/
def unreadToken (l : Lexer) : Except Failure Lexer :=
  if 0 ≤ l.lastToken then .ok l.unreadToken else .error (.panic "index out of range")

def peekToken (token : Lexer.Token) (l : Lexer) : Except Failure (Bool × Lexer) := do
  let (t, l) ← readToken l
  if t = token then pure (true, l)
  else
    let l ← unreadToken l
    pure (false, l)

def readIdent (l : Lexer) : Except Failure (Option GoString × Lexer) := do
  let cursor := l.ofs + (l.rest.takeWhile Lexer.isVarname).length
  if cursor = l.ofs then pure (none, { l with lastToken := l.ofs })
  else
    let name ← slice l.input l.ofs cursor
    pure (some name, { l with lastToken := l.ofs, ofs := cursor }.eatWhitespace)

def matchPiece (path : Bool) (input : GoString) (start : Nat) : Except Failure Lexer.Piece :=
  let s := input.drop start
  match Lexer.matchPiece path s with
  | .special _ n =>
    if s[1]? = some 123 then do
      let name ← slice input (start + 2) (start + n - 1)
      pure (.special name n)
    else do
      let name ← slice input (start + 1) (start + n)
      pure (.special name n)
  | .text t n =>
    if s.head? = some 36 then pure (.text t n)
    else if (s.head?.map Lexer.isPlain).getD false then do
      let text ← slice input start (start + n)
      pure (.text text n)
    else do
      let _ ← index input start
      let text ← slice input start (start + 1)
      pure (.text text n)
  | .done n =>
    if path = false ∧ s.head? = some 10 then do
      let _ ← index input start
      pure (.done n)
    else pure (.done n)
  | piece => pure piece

def readPieces (path : Bool) : Nat → Lexer → Nat → EvalString →
    Except Failure (Except GoString (EvalString × Nat × Nat) × Nat)
  | 0, _, _, _ => .error .outOfFuel
  | fuel + 1, l, start, es => do
    let l' := { l with lastToken := start }
    match ← matchPiece path l.input start with
    | .text [] n => readPieces path fuel l (start + n) es
    | .text (t :: ts) n => readPieces path fuel l (start + n) (es.addText (t :: ts))
    | .special v n => readPieces path fuel l (start + n) (es.addSpecial v)
    | .done n => pure (.ok (es, start, start + n), start)
    | .badEscape => do
      let err ← error l' "bad $-escape (literal $ must be written as $$)"
      pure (.error err, start)
    | .unexpectedEof    => pure (.error "unexpected EOF", start)
    | .lexingError => do
      let text ← describeLastError l'
      let err ← error l' text
      pure (.error err, start)

def readEvalString (path : Bool) (l : Lexer) :
    Except Failure (Except GoString EvalString × Lexer) := do
  match ← readPieces path (l.rest.length + 1) l l.ofs {} with
  | (.error err, start) => pure (.error err, { l with lastToken := start })
  | (.ok (es, start, stop), _) =>
    let l := { l with lastToken := start, ofs := stop }
    pure (.ok es, if path then l.eatWhitespace else l)

section Lookup

variable (st : State) (e : EdgeId) (shellEscape : Bool)

def builtin (v : GoString) : Except Failure (Option GoString) := do
  let x := st.world.edges e
  if v = "in" then pure (some (makePathList shellEscape x.explicitInputs 32))
  else if v = "in_newline" then
    pure (some (makePathList shellEscape x.explicitInputs 10))
  else if v = "out" then
    let explicitOuts ← slice x.outputs 0 (x.outputs.length - x.implicitOuts)
    pure (some (makePathList shellEscape explicitOuts 32))
  else pure none

/-- Run a computation that does not change the lookups. -/
def orThrow {α : Type} : Except Failure α → EStateM Failure EdgeEnv α
  | .ok a => pure a
  | .error f => throw f

def checkCycle (v : GoString) : EStateM Failure EdgeEnv Unit := do
  let env ← get
  let i := searchStrings env.lookups v
  if env.isRecursive ∧ i ≠ env.lookups.length then
    let cycle ← orThrow (slice env.lookups i env.lookups.length)
    throw (.fatal (("cycle in rule variables: " : GoString) ++
      (cycle.flatMap fun s => s ++ (" -> " : GoString)) ++ v))
  else
    pure ()

def popLookup : EStateM Failure EdgeEnv Unit := do
  let env ← get
  let lookups ← orThrow (slice env.lookups 0 (env.lookups.length - 1))
  modify fun env => { env with lookups := lookups }

def edgeLookup : Nat → GoString → EStateM Failure EdgeEnv GoString
  | 0, _ => throw .outOfFuel
  | fuel + 1, v => do
    match ← orThrow (builtin st e shellEscape v) with
    | some value => pure value
    | none => do
      checkCycle v
      let eval := (st.edgeRule e).bindings v
      let recordVarname := (← get).isRecursive && eval.isSome
      State.setLookups fun l => if recordVarname then l ++ [v] else l
      modify fun env => { env with isRecursive := true }
      let result ← State.lookupWithFallback st e (edgeLookup fuel) v eval
      if recordVarname then popLookup else pure ()
      pure result

def getBinding (fuel : Nat) (v : GoString) : Except Failure GoString :=
  match edgeLookup st e shellEscape fuel v {} with
  | .ok value _ => .ok value
  | .error f _ => .error f

end Lookup

end Checked

end Reninja
