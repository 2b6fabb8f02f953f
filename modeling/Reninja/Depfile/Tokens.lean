import Reninja.Depfile.Patterns

/-!
# Depfiles as lists of names

What a depfile says, without a buffer that is changed: its tokens are read from left to right,
their texts are put together to names, and the names are sorted into targets and dependencies.
-/

namespace Reninja.Depfile

/-! ### Tokens -/

/-- A match with the bytes it took. The last one may be the NUL byte behind the end. -/
structure Token where
  pattern : Pattern
  lexeme : GoString
  deriving DecidableEq, Repr

/-- The text that a token adds to a name. In front of a space every second backslash goes, in front
of a `#` and of a `:` one, and of two dollar signs one stays. -/
def Token.text (token : Token) : GoString :=
  match token.pattern with
  | .oddSpace => token.lexeme.drop (token.lexeme.length / 2)
  | .evenSpace | .colonEnd => token.lexeme.dropLast
  | .hash | .colon | .dollar => token.lexeme.tail
  | .text => token.lexeme
  | .nul | .continuation | .newline | .other => []

def Pattern.endsName : Pattern → Bool
  | .evenSpace | .colonEnd | .nul | .continuation | .newline | .other => true
  | .oddSpace | .hash | .colon | .dollar | .text => false

def Token.endsLine (token : Token) : Bool :=
  match token.pattern with
  | .newline => true
  | .colonEnd => token.lexeme.getLast? = some 10
  | _ => false

/-- The token at the front of a text, and what is behind it. -/
def nextToken (s : GoString) : Option (Token × GoString) :=
  (listedMatch s).map fun (pattern, n) => (⟨pattern, (s ++ [0]).take n⟩, s.drop n)

def tokensUpTo : Nat → GoString → List Token
  | 0, _ => []
  | limit + 1, s =>
    if s = [] then [] else
    match nextToken s with
    | some (token, rest) => token :: tokensUpTo limit rest
    | none => []

def tokens (s : GoString) : List Token := tokensUpTo s.length s

lemma text_oddSpace (j : Nat) :
    Token.text ⟨.oddSpace, backslashes (2 * j + 1) ++ [32]⟩ = backslashes j ++ [32] := by
  have hlen : (backslashes (2 * j + 1) ++ [32]).length / 2 = j + 1 := by
    rw [List.length_append, length_backslashes, List.length_singleton]
    omega
  rw [Token.text]
  simp only [hlen]
  rw [List.drop_append_of_le_length (by rw [length_backslashes]; omega), backslashes,
    List.drop_replicate, show 2 * j + 1 - (j + 1) = j by omega]
  rfl

lemma text_evenSpace (k : Nat) :
    Token.text ⟨.evenSpace, backslashes k ++ [32]⟩ = backslashes k := List.dropLast_concat

lemma text_hash (k : Nat) :
    Token.text ⟨.hash, backslashes (k + 1) ++ [35]⟩ = backslashes k ++ [35] := rfl

lemma text_colon (k : Nat) :
    Token.text ⟨.colon, backslashes (k + 1) ++ [58]⟩ = backslashes k ++ [58] := rfl

lemma text_colonEnd (k : Nat) (c : UInt8) :
    Token.text ⟨.colonEnd, backslashes k ++ [58, c]⟩ = backslashes k ++ [58] := by
  rw [show backslashes k ++ [58, c] = (backslashes k ++ [58]) ++ [c] by simp]
  exact List.dropLast_concat

/-- The names that tokens make up, where `text` was read before them; each with whether the line
ends behind it. -/
def splitNames (text : GoString) : List Token → List (GoString × Bool)
  | [] => [(text, false)]
  | token :: tokens =>
    if token.pattern.endsName then (text ++ token.text, token.endsLine) :: splitNames [] tokens
    else splitNames (text ++ token.text) tokens

/-- What has been read. -/
structure Reading where
  outs : List GoString := []
  ins : List GoString := []
  /-- The names are dependencies now. -/
  afterColon : Bool := false
  /-- A target of this rule is a dependency of an earlier one. -/
  inputAsTarget : Bool := false
  anyColon : Bool := false
  anyName : Bool := false
  deriving DecidableEq, Repr

def appendNew (names : List GoString) (name : GoString) : List GoString :=
  if name ∈ names then names else names ++ [name]

namespace Reading

variable (r : Reading)

def addTarget (name : GoString) : Reading :=
  if name ∈ r.ins then { r with inputAsTarget := true }
  else { r with outs := appendNew r.outs name }

def addDependency (name : GoString) : Reading × Option GoString :=
  if r.inputAsTarget ∧ name ∉ r.ins then (r, some "inputs may not also have inputs")
  else ({ r with ins := appendNew r.ins name }, none)

def addName (isDependency : Bool) (name : GoString) : Reading × Option GoString :=
  if name = [] then (r, none)
  else if isDependency then addDependency { r with anyName := true } name
  else (addTarget { r with anyName := true } name, none)

/-- A colon at the end of a name is not part of it: the names behind it are dependencies. -/
def readName (text : GoString) : Reading × Option GoString :=
  if text.getLast? = some 58 then
    addName { r with afterColon := true, anyColon := true } r.afterColon text.dropLast
  else
    addName r r.afterColon text

def endLine : Reading := { r with afterColon := false, inputAsTarget := false }

def readNames (r : Reading) : List (GoString × Bool) → Reading × Option GoString
  | [] =>
    (r, if r.anyName ∧ ¬ r.anyColon then some "expected ':' in depfile" else none)
  | (text, newline) :: ns =>
    match r.readName text with
    | (r, some err) => (r, some err)
    | (r, none) => readNames (if newline then r.endLine else r) ns

end Reading

/-- The targets and dependencies of a depfile, and the error if there is one. -/
def reading (content : GoString) : Reading × Option GoString :=
  Reading.readNames {} (splitNames [] (tokens content))

end Reninja.Depfile
